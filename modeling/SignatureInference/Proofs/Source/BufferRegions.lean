import SignatureInference.Proofs.Source.BufferHeredocs
import SignatureInference.Proofs.Source.MaskInsertion

/-! # Regions of the buffer

What is blanked at a token, and where the cursor goes on, is what the plan for the token says. Only
a string without an end is blanked up to a byte that may be inside a character.
-/
namespace SignatureInference.Source.Buffer

open Text

/-! ## Plans on bytes -/

def inkBytes (c : Char) : Ink → List UInt8
  | .keep => String.utf8EncodeChar c
  | .blank => (String.utf8EncodeChar c).map blankByte
  | .lastByte =>
    (String.utf8EncodeChar c).dropLast.map blankByte ++ (String.utf8EncodeChar c).getLast?.toList

/-- The bytes of a text after a plan for its first characters is carried out. -/
def inked : List Ink → List Char → List UInt8
  | ink :: inks, c :: cs => inkBytes c ink ++ inked inks cs
  | _, cs => bytes cs

theorem inked_nil (cs : List Char) : inked [] cs = bytes cs := by cases cs <;> rfl

theorem inked_append {inks : List Ink} {a : List Char} (h : inks.length = a.length)
    (more : List Ink) (b : List Char) :
    inked (inks ++ more) (a ++ b) = inked inks a ++ inked more b := by
  induction inks generalizing a with
  | nil => rw [List.eq_nil_of_length_eq_zero h.symm]; rfl
  | cons ink inks ih =>
    cases a with
    | nil => cases h
    | cons c a =>
      rw [List.cons_append, List.cons_append, inked, inked, ih (Nat.succ.inj h), List.append_assoc]

theorem inked_keep (n : Nat) (cs : List Char) : inked (List.replicate n .keep) cs = bytes cs := by
  induction n generalizing cs with
  | zero => exact inked_nil cs
  | succ n ih =>
    cases cs with
    | nil => rfl
    | cons c cs => rw [List.replicate_succ, inked, ih, bytes_cons]; rfl

theorem inked_blank (cs : List Char) :
    inked (List.replicate cs.length .blank) cs = (bytes cs).map blankByte := by
  induction cs with
  | nil => rfl
  | cons c cs ih =>
    rw [List.length_cons, List.replicate_succ, inked, ih, bytes_cons, List.map_append]; rfl

theorem blank?_middle (done x y z : List UInt8) :
    blank? (done ++ (x ++ (y ++ z))) (done.length + x.length) (done.length + x.length + y.length) =
      some (done ++ (x ++ (y.map blankByte ++ z))) := by
  have hx : (done ++ (x ++ (y ++ z))).take (done.length + x.length) = done ++ x := by
    rw [← List.append_assoc, List.take_left' List.length_append]
  have hy : (done ++ (x ++ (y ++ z))).take (done.length + x.length + y.length) =
      (done ++ x) ++ y := by
    rw [← List.append_assoc, ← List.append_assoc, List.take_left' (by simp [Nat.add_assoc])]
  have hz : (done ++ (x ++ (y ++ z))).drop (done.length + x.length + y.length) = z := by
    rw [← List.append_assoc, ← List.append_assoc, List.drop_left' (by simp [Nat.add_assoc])]
  rw [blank?, if_pos (by simp [Nat.add_assoc]), hx, hy, hz, List.drop_left' List.length_append,
    List.append_assoc]

/-- A region carries out a plan for the text at an offset: it blanks what the plan blanks, and goes
on where the plan ends. -/
structure Region.Follows (region : Region) (i : Nat) (inks : List Ink) (cs : List Char) : Prop where
  fits : inks.length ≤ cs.length
  next : region.next = i + byteLength (cs.take inks.length)
  apply : ∀ done : List UInt8, done.length = i →
    region.apply? (done ++ bytes cs) = some (done ++ inked inks cs)

variable {i : Nat} {cs : List Char}

theorem follows_keep (i : Nat) {k : Nat} (h : k ≤ cs.length) :
    Region.Follows ⟨none, i + byteLength (cs.take k)⟩ i (List.replicate k .keep) cs where
  fits := by rwa [List.length_replicate]
  next := by rw [List.length_replicate]
  apply done _ := by rw [inked_keep]; rfl

theorem follows_blank {m n k start stop next : Nat} (h : m + n + k ≤ cs.length)
    (hstart : start = i + byteLength (cs.take m)) (hstop : stop = i + byteLength (cs.take (m + n)))
    (hnext : next = i + byteLength (cs.take (m + n + k))) :
    Region.Follows ⟨some (start, stop), next⟩ i
      (List.replicate m .keep ++ (List.replicate n .blank ++ List.replicate k .keep)) cs where
  fits := by simpa [← Nat.add_assoc] using h
  next := by simp [hnext, Nat.add_assoc]
  apply done hdone := by
    obtain ⟨a, rest, rfl, rfl⟩ : ∃ a rest, cs = a ++ rest ∧ a.length = m :=
      ⟨cs.take m, cs.drop m, (List.take_append_drop ..).symm, by rw [List.length_take]; omega⟩
    obtain ⟨b, c, rfl, rfl⟩ : ∃ b c, rest = b ++ c ∧ b.length = n := by
      rw [List.length_append] at h
      exact ⟨rest.take n, rest.drop n, (List.take_append_drop ..).symm,
        by rw [List.length_take]; omega⟩
    have hinked :
        inked (List.replicate a.length .keep ++
          (List.replicate b.length .blank ++ List.replicate k .keep))
          (a ++ (b ++ c)) = bytes a ++ ((bytes b).map blankByte ++ bytes c) := by
      rw [inked_append (by simp), inked_append (by simp), inked_keep, inked_blank, inked_keep]
    have hab : (a ++ (b ++ c)).take (a.length + b.length) = a ++ b := by
      rw [← List.append_assoc, List.take_left' List.length_append]
    subst hdone
    rw [hinked, Region.apply?, hstart, hstop, List.take_left, hab, byteLength_append, bytes_append,
      bytes_append]
    simp only [← Nat.add_assoc, ← length_bytes]
    exact blank?_middle ..

theorem follows_unclosed {q d : Char} {start stop next : Nat} (hstart : start = i + q.utf8Size)
    (hnext : next = i + byteLength (q :: (cs ++ [d]))) (hstop : stop + 1 = next) :
    Region.Follows ⟨some (start, stop), next⟩ i
      (.keep :: (List.replicate cs.length .blank ++ [.lastByte]))
      (q :: (cs ++ [d])) where
  fits := by simp
  next := by rw [List.take_of_length_le (by simp), hnext]
  apply done hdone := by
    have hne : String.utf8EncodeChar d ≠ [] := by
      intro h
      have := String.length_utf8EncodeChar d
      have := d.utf8Size_pos
      simp [h] at *
      omega
    have hd := List.dropLast_append_getLast hne
    have hinked :
        inked (.keep :: (List.replicate cs.length .blank ++ [.lastByte])) (q :: (cs ++ [d])) =
          String.utf8EncodeChar q ++
            ((bytes cs ++ (String.utf8EncodeChar d).dropLast).map blankByte ++
              [(String.utf8EncodeChar d).getLast hne]) := by
      rw [inked, inked_append (by simp), inked_blank, inked, inked_nil]
      simp [inkBytes, List.getLast?_eq_getLast_of_ne_nil hne]
    have hbytes : bytes (q :: (cs ++ [d])) = String.utf8EncodeChar q ++
        ((bytes cs ++ (String.utf8EncodeChar d).dropLast) ++
          [(String.utf8EncodeChar d).getLast hne]) := by
      rw [List.append_assoc, hd]
      simp
    subst hdone
    have hstop : stop = done.length + (String.utf8EncodeChar q).length +
        (bytes cs ++ (String.utf8EncodeChar d).dropLast).length := by
      have := d.utf8Size_pos
      simp at hnext ⊢
      omega
    rw [hinked, hbytes, Region.apply?, hstop, hstart, ← String.length_utf8EncodeChar q]
    exact blank?_middle ..

/-! ## Strings -/

def IsQuote (q : Char) : Prop := q = '\'' ∨ q = '"' ∨ q = '\x60'

/-- A text in which no quote closes a string. A backslash protects the character after it. -/
inductive Unclosed (quote : Char) : List Char → Prop
  | nil : Unclosed quote []
  | backslash : Unclosed quote ['\\']
  | escape {cs : List Char} (d : Char) (h : Unclosed quote cs) : Unclosed quote ('\\' :: d :: cs)
  | other {c : Char} {cs : List Char} (hescape : c ≠ '\\') (hquote : c ≠ quote)
    (h : Unclosed quote cs) :
      Unclosed quote (c :: cs)

/-- What follows an opening quote, with the marks for it: a string with an end, no string, or one
without an end. -/
inductive Quoted (quote : Char) : List Char → Prop
  | closed (body rest : List Char)
      (hplan : stringPlan quote (body ++ quote :: rest) =
        List.replicate body.length .blank ++ [.keep]) :
      Quoted quote (body ++ quote :: rest)
  | empty : Quoted quote []
  | unclosed (body : List Char) (d : Char) (h : Unclosed quote (body ++ [d]))
      (hplan : stringPlan quote (body ++ [d]) = List.replicate body.length .blank ++ [.lastByte]) :
      Quoted quote (body ++ [d])

variable {quote : Char}

theorem Quoted.append (front : List Char) (hne : cs ≠ [])
    (hplan : stringPlan quote (front ++ cs) =
      List.replicate front.length .blank ++ stringPlan quote cs)
    (hopen : Unclosed quote cs → Unclosed quote (front ++ cs)) (h : Quoted quote cs) :
    Quoted quote (front ++ cs) := by
  cases h with
  | closed body rest h =>
    rw [← List.append_assoc] at hplan ⊢
    refine .closed (front ++ body) rest ?_
    rw [hplan, h, List.length_append, ← List.replicate_append_replicate, List.append_assoc]
  | empty => exact absurd rfl hne
  | unclosed body d hunclosed h =>
    have hall := hopen hunclosed
    rw [← List.append_assoc] at hplan hall ⊢
    refine .unclosed (front ++ body) d hall ?_
    rw [hplan, h, List.length_append, ← List.replicate_append_replicate, List.append_assoc]

theorem quoted (hslash : quote ≠ '\\') (cs : List Char) : Quoted quote cs := by
  induction hn : cs.length using Nat.strong_induction_on generalizing cs with
  | h n ih =>
    subst hn
    cases cs with
    | nil => exact .empty
    | cons c cs =>
      by_cases hq : c = quote
      · subst hq
        exact .closed [] cs (stringPlan_quote hslash cs)
      by_cases hc : c = '\\'
      · subst hc
        cases cs with
        | nil => exact .unclosed [] '\\' .backslash (by simp [stringPlan, hq])
        | cons d cs =>
          by_cases hcs : cs = []
          · subst hcs
            exact .unclosed ['\\'] d (.escape d .nil) (by simp [stringPlan])
          · exact (ih _ (by simp) _ rfl).append ['\\', d] hcs
              (stringPlan_escape quote d hcs) (.escape d)
      · by_cases hcs : cs = []
        · subst hcs
          exact .unclosed [] c (.other hc hq .nil) (by simp [stringPlan, hq])
        · exact (ih _ (by simp) _ rfl).append [c] hcs (stringPlan_other hc hq hcs) (.other hc hq)

theorem follows_string (hsize : quote.utf8Size = 1) (hslash : quote ≠ '\\') (front : List UInt8)
    {stop : Nat}
    (hstop : stop = stringEnd (front ++ bytes (quote :: cs)) quote.toUInt8 (front.length + 1)) :
    Region.Follows ⟨some (front.length + 1, max (stop - 1) (front.length + 1)), stop⟩ front.length
      (.keep :: stringPlan quote cs) (quote :: cs) := by
  have hend := stringEnd_bytes hsize hslash (front ++ String.utf8EncodeChar quote) cs
  rw [← grow_front (stringEnd · _), length_front_add, hsize, stringLength] at hend
  rw [hstop, hend]
  cases quoted hslash cs with
  | closed body rest hplan =>
    have htake : (body ++ quote :: rest).take (body.length + 1) = body ++ [quote] := by
      rw [List.take_length_add_append]
      rfl
    have hlen : (List.replicate body.length Ink.blank ++ [Ink.keep]).length = body.length + 1 := by
      simp
    rw [hplan, hlen, htake]
    refine follows_blank (m := 1) (n := body.length) (k := 1) ?_ ?_ ?_ ?_
    · simp only [List.length_cons, List.length_append]
      omega
    · simp [hsize]
    · simp [Nat.add_comm 1, hsize]
    · rw [Nat.add_assoc, Nat.add_comm 1 (body.length + 1), List.take_succ_cons, htake,
        byteLength_cons, hsize]
  | empty =>
    exact follows_blank (m := 1) (n := 0) (k := 0) (by simp) (by simp [hsize])
      (by simp [hsize, stringPlan])
      (by simp [hsize, stringPlan])
  | unclosed body d hopen hplan =>
    have hlen : (List.replicate body.length Ink.blank ++ [Ink.lastByte]).length =
        (body ++ [d]).length := by
      simp
    rw [hplan, hlen, List.take_length]
    have := d.utf8Size_pos
    refine follows_unclosed ?_ ?_ ?_
    · rw [hsize]
    · rw [byteLength_cons, hsize]
    · simp
      omega

/-! ## All tokens -/

theorem lineCommentLength_le (cs : List Char) : lineCommentLength cs ≤ cs.length := by
  fun_induction lineCommentLength cs with
  | case1 => exact le_rfl
  | case2 => exact Nat.zero_le _
  | case3 => exact Nat.zero_le _
  | case4 c cs _ _ ih => exact Nat.succ_le_succ ih

theorem blockCommentLength_le (cs : List Char) : blockCommentLength cs ≤ cs.length := by
  fun_induction blockCommentLength cs with
  | case1 => exact le_rfl
  | case2 => exact Nat.le_add_left ..
  | case3 c cs _ ih => exact Nat.succ_le_succ ih

theorem attributeLength_le (depth : Nat) (quote : Option Char) (cs : List Char) :
    attributeLength depth quote cs ≤ cs.length := by
  fun_induction attributeLength depth quote cs with
  | case1 => exact le_rfl
  | case2 => exact le_rfl
  | case3 _ _ _ _ ih => exact Nat.add_le_add_right ih 2
  | case4 _ _ _ _ _ ih => exact Nat.succ_le_succ ih
  | case5 _ _ ih => exact Nat.succ_le_succ ih
  | case6 => exact Nat.le_add_left ..
  | case7 _ _ _ _ ih => exact Nat.succ_le_succ ih
  | case8 _ _ _ _ _ ih => exact Nat.succ_le_succ ih

theorem follows_comment {n stop : Nat} (h : n ≤ cs.length)
    (hstop : stop = i + byteLength (cs.take n)) :
    Region.Follows ⟨some (i, stop), stop⟩ i (List.replicate n .blank) cs := by
  have h := follows_blank (i := i) (m := 0) (k := 0) (by simpa using h) rfl (by simpa using hstop)
    (by simpa using hstop)
  simpa using h

theorem beginsToken_cases {e : Char} (h : beginsToken e = true) :
    e = '/' ∨ e = '#' ∨ IsQuote e ∨ e = '<' := by
  simp only [beginsToken, Bool.or_eq_true, beq_iff_eq] at h
  rcases h with ((((h | h) | h) | h) | h) | h
  · exact .inl h
  · exact .inr (.inl h)
  · exact .inr (.inr (.inl (.inl h)))
  · exact .inr (.inr (.inl (.inr (.inl h))))
  · exact .inr (.inr (.inl (.inr (.inr h))))
  · exact .inr (.inr (.inr h))

theorem region?_plain {bytes : List UInt8} {i : Nat} {b : UInt8} (hi : bytes[i]? = some b)
    (hb : b ∉ ['/', '#', '\'', '"', '\x60', '<'].map Char.toUInt8) :
    region? bytes i = some ⟨none, i + 1⟩ := by
  simp only [List.map_cons, List.map_nil, List.mem_cons, List.not_mem_nil, or_false, not_or] at hb
  obtain ⟨hslash, hhash, hsingle, hdouble, hback, hangle⟩ := hb
  obtain ⟨hlt, rfl⟩ := List.getElem?_eq_some_iff.mp hi
  have hheredoc : ['<'.toUInt8, '<'.toUInt8, '<'.toUInt8].isPrefixOf (bytes.drop i) = false := by
    rw [List.drop_eq_getElem_cons hlt, List.isPrefixOf_cons_cons, beq_false_of_ne (Ne.symm hangle),
      Bool.false_and]
  rw [region?, hi]
  simp [hslash, hhash, hsingle, hdouble, hback, hheredoc]

/-- The marks for the first token of a text, where a character that begins none is a token to
keep. -/
def tokenPlan (cs : List Char) : List Ink := if plan cs = [] then [.keep] else plan cs

theorem tokenPlan_of_nil {cs : List Char} (h : plan cs = []) : tokenPlan cs = [.keep] := if_pos h

theorem tokenPlan_of_cons {cs : List Char} {ink : Ink} {inks : List Ink}
    (h : plan cs = ink :: inks) :
    tokenPlan cs = ink :: inks := by
  rw [tokenPlan, if_neg (by simp [h]), h]

theorem follows_blockComment (front : List UInt8) {stop : Nat}
    (hstop : stop =
      ((find? ['*'.toUInt8, '/'.toUInt8] (front ++ bytes ('/' :: '*' :: cs)) (front.length + 2)).map
        (· + 2)).getD (front ++ bytes ('/' :: '*' :: cs)).length) :
    Region.Follows ⟨some (front.length, stop), stop⟩ front.length
      (List.replicate (blockCommentLength cs + 2) .blank) ('/' :: '*' :: cs) := by
  have hend := blockEnd_bytes (front ++ bytes ['/', '*']) cs
  rw [← grow_front_text fun bytes i => ((find? ['*'.toUInt8, '/'.toUInt8] bytes i).map
    (· + 2)).getD bytes.length] at hend
  refine follows_comment (Nat.add_le_add_right (blockCommentLength_le cs) 2)
    (hstop.trans (hend.trans ?_))
  rw [List.length_append, length_bytes, Nat.add_assoc, ← byteLength_append]
  rfl

theorem follows_attribute (front : List UInt8) {stop : Nat}
    (hstop : stop = attributeEnd (front ++ bytes ('#' :: '[' :: cs)) 0 (front.length + 1)) :
    Region.Follows ⟨some (front.length, stop), stop⟩ front.length
      (List.replicate (attributeLength 1 none cs + 2) .blank) ('#' :: '[' :: cs) := by
  have hbracket : (front ++ bytes ('#' :: '[' :: cs))[front.length + 1]? = some '['.toUInt8 := by
    rw [getElem?_front]
    rfl
  have hend := attributeEnd_bytes (front ++ bytes ['#', '[']) (Nat.one_pos : 0 < 1) cs
  rw [← grow_front_text (attributeEnd · _)] at hend
  refine follows_comment (Nat.add_le_add_right (attributeLength_le 1 none cs) 2) ?_
  rw [hstop, attributeEnd_cons hbracket, if_pos rfl]
  refine hend.trans ?_
  rw [List.length_append, length_bytes, Nat.add_assoc, ← byteLength_append]
  rfl

theorem exists_follows_heredoc (front : List UInt8) (cs : List Char) :
    ∃ region, heredoc? (front ++ bytes ('<' :: '<' :: '<' :: cs)) front.length = some region ∧
      region.Follows front.length (.keep :: .keep :: .keep :: heredocPlan cs)
        ('<' :: '<' :: '<' :: cs) := by
  have hfront : (front ++ bytes ['<', '<', '<']).length = front.length + 3 := by
    rw [List.length_append]
    rfl
  obtain ⟨m, n, k, blanks, hplan, hle, hregion, hblanks⟩ :=
    heredoc?_bytes (front ++ bytes ['<', '<', '<']) hfront.symm cs
  have htake : ∀ j, front.length + 3 + byteLength (cs.take j) =
      front.length + byteLength (('<' :: '<' :: '<' :: cs).take (j + 3)) := by
    intro j
    have hsize : byteLength ['<', '<', '<'] = 3 := by decide
    rw [Nat.add_assoc, ← hsize, ← byteLength_append]
    rfl
  rw [List.append_assoc, ← bytes_append, hfront] at hregion
  refine ⟨_, hregion, ?_⟩
  have hmarks : .keep :: .keep :: .keep :: heredocPlan cs =
      List.replicate (m + 3) .keep ++ (List.replicate n .blank ++ List.replicate k .keep) := by
    rw [hplan]
    rfl
  rw [hmarks, htake]
  rcases hblanks with ⟨rfl, rfl⟩ | rfl
  · have hfits : m + 3 + k ≤ ('<' :: '<' :: '<' :: cs).length := by
      simp only [List.length_cons]
      omega
    have hkeep := follows_keep front.length hfits
    rw [← List.replicate_append_replicate] at hkeep
    rw [Nat.add_right_comm (m + 0) k 3]
    exact hkeep
  · rw [hfront, htake, htake]
    refine follows_blank ?_ rfl ?_ ?_
    · simp only [List.length_cons]
      omega
    · rw [Nat.add_right_comm]
    · rw [Nat.add_right_comm (m + n) k 3, Nat.add_right_comm m n 3]

theorem follows_plain {c : Char} (hc : c.utf8Size = 1) (h : plan (c :: cs) = []) (i : Nat) :
    Region.Follows ⟨none, i + 1⟩ i (tokenPlan (c :: cs)) (c :: cs) := by
  have hkeep := follows_keep i (show 1 ≤ (c :: cs).length from Nat.le_add_left 1 cs.length)
  rw [List.take_succ_cons, List.take_zero, byteLength_cons, hc] at hkeep
  rw [tokenPlan_of_nil h]
  exact hkeep

/-- The region at a character of one byte carries out the plan for the token there. -/
theorem region?_bytes {c : Char} (hc : c.utf8Size = 1) (front : List UInt8) (cs : List Char) :
    ∃ region, region? (front ++ bytes (c :: cs)) front.length = some region ∧
      region.Follows front.length (tokenPlan (c :: cs)) (c :: cs) := by
  have hhere : (front ++ bytes (c :: cs))[front.length]? = some c.toUInt8 := by
    rw [getElem?_here, head?_bytes_ascii hc]
  have hbyte : ∀ d : Char, d.utf8Size = 1 → (c.toUInt8 = d.toUInt8 ↔ c = d) :=
    fun d => toUInt8_inj hc
  have hnext : ∀ d : Char, d.utf8Size = 1 →
      ((front ++ bytes (c :: cs))[front.length + 1]? = some d.toUInt8 ↔ cs.head? = some d) := by
    intro d hd
    rw [getElem?_front, bytes_cons_ascii hc, List.getElem?_cons_succ, ← List.head?_eq_getElem?,
      head?_bytes hd]
  have hheredoc :
      ['<'.toUInt8, '<'.toUInt8, '<'.toUInt8].isPrefixOf
        ((front ++ bytes (c :: cs)).drop front.length) =
        ['<', '<', '<'].isPrefixOf (c :: cs) := by
    rw [List.drop_left]
    exact isPrefixOf_bytes ['<', '<', '<'] (by decide) (c :: cs)
  by_cases hplain : beginsToken c = false
  · refine ⟨⟨none, front.length + 1⟩, region?_plain hhere ?_,
      follows_plain hc (plan_of_not_beginsToken hplain cs) _⟩
    rw [toUInt8_mem_map (by decide) hc]
    simpa [beginsToken, and_assoc] using hplain
  rw [region?, hhere]
  simp only [hbyte '/' (by decide), hbyte '#' (by decide), hbyte '\'' (by decide),
    hbyte '"' (by decide), hbyte '\x60' (by decide), hnext '/' (by decide), hnext '[' (by decide),
    hnext '*' (by decide), hheredoc]
  by_cases hslash : c = '/'
  · subst hslash
    by_cases hline : cs.head? = some '/'
    · obtain ⟨cs, rfl⟩ := List.head?_eq_some_iff.mp hline
      refine ⟨_, if_pos ⟨rfl, rfl⟩, ?_⟩
      exact follows_comment (lineCommentLength_le _) (lineEnd_bytes front _)
    rw [if_neg (fun h => hline h.2), if_neg (by simp), if_neg (by decide)]
    by_cases hblock : cs.head? = some '*'
    · obtain ⟨cs, rfl⟩ := List.head?_eq_some_iff.mp hblock
      exact ⟨_, if_pos ⟨rfl, rfl⟩, follows_blockComment front rfl⟩
    · rw [if_neg (fun h => hblock h.2), if_neg (by decide), if_neg (by simp)]
      exact ⟨_, rfl, follows_plain hc (plan_slash hline hblock) _⟩
  rw [if_neg fun h => hslash h.1]
  by_cases hhash : c = '#'
  · subst hhash
    by_cases hattribute : cs.head? = some '['
    · obtain ⟨cs, rfl⟩ := List.head?_eq_some_iff.mp hattribute
      exact ⟨_, if_pos ⟨rfl, rfl⟩, follows_attribute front rfl⟩
    · rw [if_neg fun h => hattribute h.2, if_pos rfl, tokenPlan_of_cons (plan_hash hattribute)]
      exact ⟨_, rfl, follows_comment (lineCommentLength_le ('#' :: cs)) (lineEnd_bytes front _)⟩
  rw [if_neg fun h => hhash h.1, if_neg hhash, if_neg fun h => hslash h.1]
  by_cases hquote : c = '\'' ∨ c = '"' ∨ c = '\x60'
  · rw [if_pos hquote]
    refine ⟨_, rfl, ?_⟩
    rcases hquote with rfl | rfl | rfl <;> exact follows_string (by decide) (by decide) front rfl
  rw [if_neg hquote]
  have htoken := beginsToken_cases (by simpa using hplain)
  obtain rfl := ((htoken.resolve_left hslash).resolve_left hhash).resolve_left hquote
  by_cases hmark : ['<', '<', '<'].isPrefixOf ('<' :: cs) = true
  · obtain ⟨ds, hds⟩ := List.isPrefixOf_iff_prefix.mp hmark
    obtain rfl : '<' :: '<' :: ds = cs := (List.cons.inj hds).2
    rw [if_pos hmark]
    exact exists_follows_heredoc front ds
  · rw [if_neg hmark]
    refine ⟨_, rfl, follows_plain hc (plan_angle fun h => hmark ?_) _⟩
    exact List.isPrefixOf_iff_prefix.mpr (List.cons_prefix_cons.mpr ⟨rfl, h⟩)

end SignatureInference.Source.Buffer
