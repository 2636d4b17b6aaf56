import SignatureInference.Proofs.Source.Buffer
import SignatureInference.Proofs.Source.Tokens

/-! # Ends of tokens in the buffer

Where the cursor stands at the first byte of a comment, a string or an attribute, the end that is
found among the bytes is the end of the token in the text. The bytes above ASCII are passed over one
at a time, so that they need no decoding.
-/
namespace SignatureInference.Source.Buffer

open Text

/-! ## Passing over characters -/

section

variable {α : Type} {c : Char} {front rest : List UInt8}

theorem getElem?_front (front rest : List UInt8) (k : Nat) :
    (front ++ rest)[front.length + k]? = rest[k]? := by
  rw [List.getElem?_append_right (Nat.le_add_right ..), Nat.add_sub_cancel_left]

theorem getElem?_here (front rest : List UInt8) : (front ++ rest)[front.length]? = rest.head? := by
  rw [← Nat.add_zero front.length, getElem?_front, List.head?_eq_getElem?]

theorem head?_bytes_ascii (hc : c.utf8Size = 1) (cs : List Char) :
    (bytes (c :: cs)).head? = some c.toUInt8 :=
  (head?_bytes hc).mpr rfl

theorem exists_byte_of_wide (hc : c.utf8Size ≠ 1) {k : Nat} (hk : k < c.utf8Size)
    (front rest : List UInt8) :
    ∃ b, (front ++ (String.utf8EncodeChar c ++ rest))[front.length + k]? = some b ∧ 0x80 ≤ b := by
  rw [← String.length_utf8EncodeChar] at hk
  refine ⟨(String.utf8EncodeChar c)[k], ?_, le_of_mem_utf8EncodeChar hc (List.getElem_mem hk)⟩
  rw [getElem?_front, List.getElem?_append_left hk, List.getElem?_eq_getElem hk]

/-- A loop that passes over all bytes above ASCII one at a time passes over what is left of a
character. -/
theorem pass_wide (hc : c.utf8Size ≠ 1) (f : Nat → α)
    (hstep : ∀ i b, (front ++ (String.utf8EncodeChar c ++ rest))[i]? = some b → 0x80 ≤ b →
      f i = f (i + 1))
    {k : Nat} (hk : k ≤ c.utf8Size) : f (front.length + k) = f (front.length + c.utf8Size) := by
  obtain ⟨n, hn⟩ := Nat.exists_eq_add_of_le hk
  induction n generalizing k with
  | zero => rw [hn, Nat.add_zero]
  | succ n ih =>
    obtain ⟨b, hbyte, hb⟩ := exists_byte_of_wide hc (k := k) (by omega) front rest
    rw [hstep _ _ hbyte hb, Nat.add_assoc, ih (by omega) (by omega)]

/-- A loop that passes over all bytes but those of some ASCII characters passes over any other
character. -/
theorem pass_char (f : Nat → α) (word : List Char) (hword : ∀ d ∈ word, d.utf8Size = 1)
    (hc : c ∉ word) (hstep : ∀ i b, (front ++ (String.utf8EncodeChar c ++ rest))[i]? = some b →
      b ∉ word.map Char.toUInt8 →
      f i = f (i + 1)) :
    f front.length = f (front.length + c.utf8Size) := by
  by_cases hsize : c.utf8Size = 1
  · rw [hsize]
    apply hstep _ c.toUInt8
    · rw [getElem?_here, String.utf8EncodeChar_eq_singleton hsize]
      rfl
    · rwa [toUInt8_mem_map hword hsize]
  · exact pass_wide (k := 0) hsize f (fun i b hi hb =>
      hstep i b hi (not_mem_map_of_le word hword hb))
      (Nat.zero_le _)

theorem grow_front (f : List UInt8 → Nat → α) (front : List UInt8) (c : Char) (cs : List Char) :
    f (front ++ bytes (c :: cs)) (front.length + c.utf8Size) =
      f ((front ++ String.utf8EncodeChar c) ++ bytes cs)
        (front ++ String.utf8EncodeChar c).length := by
  rw [bytes_cons, List.append_assoc, List.length_append, String.length_utf8EncodeChar]

theorem grow_front_text (f : List UInt8 → Nat → α) (front : List UInt8) (t cs : List Char) :
    f (front ++ bytes (t ++ cs)) (front.length + byteLength t) =
      f ((front ++ bytes t) ++ bytes cs) (front ++ bytes t).length := by
  rw [bytes_append, List.append_assoc, List.length_append, length_bytes]

theorem length_front_add (front : List UInt8) (c : Char) (n : Nat) :
    (front ++ String.utf8EncodeChar c).length + n = front.length + (c.utf8Size + n) := by
  rw [List.length_append, String.length_utf8EncodeChar, Nat.add_assoc]

end

variable {front : List UInt8} {cs : List Char}

/-! ## Comments -/

theorem lineEnd_stop {bytes : List UInt8} {i : Nat}
    (h : ∀ b ∈ bytes[i]?, b = '\n'.toUInt8 ∨
      ['?'.toUInt8, '>'.toUInt8].isPrefixOf (bytes.drop i) = true) :
    lineEnd bytes i = i := by
  rw [lineEnd]
  split
  · next hi => rw [if_pos (h bytes[i] (List.getElem?_eq_getElem hi))]
  · rfl

theorem lineEnd_step {bytes : List UInt8} {i : Nat} {b : UInt8} (h : bytes[i]? = some b)
    (hline : b ≠ '\n'.toUInt8)
    (hend : ['?'.toUInt8, '>'.toUInt8].isPrefixOf (bytes.drop i) = false) :
    lineEnd bytes i = lineEnd bytes (i + 1) := by
  obtain ⟨hi, rfl⟩ := List.getElem?_eq_some_iff.mp h
  rw [lineEnd, dif_pos hi, if_neg]
  rintro (h | h)
  · exact hline h
  · rw [hend] at h
    cases h

theorem sectionEnd_bytes (front : List UInt8) (cs : List Char) :
    ['?'.toUInt8, '>'.toUInt8].isPrefixOf ((front ++ bytes cs).drop front.length) =
      ['?', '>'].isPrefixOf cs := by
  rw [List.drop_left]
  exact isPrefixOf_bytes ['?', '>'] (by decide) cs

theorem lineEnd_pass {c : Char} (hline : c ≠ '\n')
    (hend : ['?', '>'].isPrefixOf (c :: cs) = false) :
    lineEnd (front ++ bytes (c :: cs)) front.length =
      lineEnd (front ++ bytes (c :: cs)) (front.length + c.utf8Size) := by
  by_cases hc : c.utf8Size = 1
  · rw [hc]
    apply lineEnd_step (b := c.toUInt8)
    · rw [getElem?_here, head?_bytes_ascii hc]
    · exact fun h => hline ((toUInt8_inj hc (by decide)).mp h)
    · rw [sectionEnd_bytes, hend]
  · rw [bytes_cons]
    refine pass_wide (k := 0) hc (lineEnd _) (fun i b hi hb => lineEnd_step hi ?_ ?_)
      (Nat.zero_le _)
    · exact ne_toUInt8_of_le hb (by decide)
    · obtain ⟨hi', rfl⟩ := List.getElem?_eq_some_iff.mp hi
      rw [List.drop_eq_getElem_cons hi', List.isPrefixOf_cons_cons,
        beq_false_of_ne (ne_toUInt8_of_le hb (by decide)).symm, Bool.false_and]

theorem lineEnd_bytes (front : List UInt8) (cs : List Char) :
    lineEnd (front ++ bytes cs) front.length =
      front.length + byteLength (cs.take (lineCommentLength cs)) := by
  induction cs generalizing front with
  | nil => exact lineEnd_stop (by simp)
  | cons c cs ih =>
    by_cases hline : c = '\n'
    · subst hline
      apply lineEnd_stop
      rw [getElem?_here, head?_bytes_ascii (by decide)]
      exact fun b hb => .inl (Option.some.inj hb).symm
    by_cases hend : ['?', '>'].isPrefixOf (c :: cs) = true
    · have hlen : lineCommentLength (c :: cs) = 0 := by
        obtain ⟨cs, hcs⟩ := List.isPrefixOf_iff_prefix.mp hend
        rw [← hcs]
        rfl
      rw [hlen]
      exact lineEnd_stop fun b _ => .inr ((sectionEnd_bytes front _).trans hend)
    · rw [Bool.not_eq_true] at hend
      have hlen : lineCommentLength (c :: cs) = lineCommentLength cs + 1 := by
        apply lineCommentLength.eq_4
        · exact hline
        · rintro cs rfl rfl
          cases hend
      rw [lineEnd_pass hline hend, grow_front lineEnd, ih, length_front_add, hlen,
        List.take_succ_cons, byteLength_cons]

theorem position?_wide {needle : List UInt8} {d : UInt8} (hd : d < 0x80) {run : List UInt8}
    (hrun : ∀ b ∈ run, 0x80 ≤ b) (rest : List UInt8) :
    position? (d :: needle) (run ++ rest) =
      (position? (d :: needle) rest).map (run.length + ·) := by
  induction run with
  | nil => simp
  | cons b run ih =>
    have hne : (d == b) = false := by
      rw [beq_eq_false_iff_ne]
      rintro rfl
      exact absurd (UInt8.lt_of_lt_of_le hd (hrun d List.mem_cons_self)) (UInt8.lt_irrefl _)
    rw [List.cons_append, position?, List.isPrefixOf_cons_cons, hne, Bool.false_and,
      if_neg (by simp), ih fun e he => hrun e (List.mem_cons_of_mem _ he), Option.map_map]
    congr 1
    funext n
    simp only [Function.comp_apply, List.length_cons]
    omega

theorem position?_bytes_cons {d : Char} (word : List Char)
    (hword : ∀ e ∈ d :: word, e.utf8Size = 1) (c : Char) (cs : List Char) :
    position? ((d :: word).map Char.toUInt8) (bytes (c :: cs)) =
      if (d :: word).isPrefixOf (c :: cs) then some 0
      else (position? ((d :: word).map Char.toUInt8) (bytes cs)).map (c.utf8Size + ·) := by
  have hbegins := isPrefixOf_bytes _ hword (c :: cs)
  by_cases hc : c.utf8Size = 1
  · rw [bytes_cons_ascii hc] at hbegins ⊢
    rw [position?, hbegins, hc]
    simp only [Nat.add_comm]
  · have hfar : (d :: word).isPrefixOf (c :: cs) = false := by
      rw [List.isPrefixOf_cons_cons, beq_false_of_ne, Bool.false_and]
      rintro rfl
      exact hc (hword d List.mem_cons_self)
    rw [hfar, bytes_cons, List.map_cons, position?_wide (toUInt8_lt (hword d List.mem_cons_self))
      fun b => le_of_mem_utf8EncodeChar hc, String.length_utf8EncodeChar]
    rfl

theorem blockEnd_bytes (front : List UInt8) (cs : List Char) :
    ((find? ['*'.toUInt8, '/'.toUInt8] (front ++ bytes cs) front.length).map (· + 2)).getD
        (front ++ bytes cs).length = front.length + byteLength
          (cs.take (blockCommentLength cs)) := by
  suffices h : ((position? (['*', '/'].map Char.toUInt8) (bytes cs)).map (· + 2)).getD
    (byteLength cs) =
      byteLength (cs.take (blockCommentLength cs)) by
    rw [find?, List.drop_left, ← h, List.length_append, length_bytes, Option.map_map]
    simp only [List.map_cons, List.map_nil]
    cases position? ['*'.toUInt8, '/'.toUInt8] (bytes cs) with
    | none => rfl
    | some n => exact Nat.add_assoc ..
  induction cs with
  | nil => rfl
  | cons c cs ih =>
    rw [position?_bytes_cons _ (by decide)]
    by_cases hend : ['*', '/'].isPrefixOf (c :: cs) = true
    · rw [if_pos hend]
      obtain ⟨cs, hcs⟩ := List.isPrefixOf_iff_prefix.mp hend
      rw [← hcs]
      rfl
    · rw [if_neg hend]
      have hlen : blockCommentLength (c :: cs) = blockCommentLength cs + 1 := by
        apply blockCommentLength.eq_3
        rintro cs rfl rfl
        exact hend (by simp)
      rw [hlen, List.take_succ_cons, byteLength_cons, byteLength_cons, ← ih]
      cases position? (['*', '/'].map Char.toUInt8) (bytes cs) with
      | none => rfl
      | some n => exact Nat.add_assoc ..

/-! ## Strings -/

section

variable {quote : Char} (hquote : quote.utf8Size = 1) (hslash : quote ≠ '\\')

include hquote in
theorem utf8Size_escape_or : ∀ d ∈ ['\\', quote], d.utf8Size = 1 := by
  intro d hd
  rcases List.mem_pair.mp hd with rfl | rfl
  · decide
  · exact hquote

theorem stringEnd_none {bytes : List UInt8} {q : UInt8} {i : Nat} (h : bytes.length ≤ i) :
    stringEnd bytes q i = bytes.length := by
  rw [stringEnd, dif_neg (Nat.not_lt.mpr h)]

theorem stringEnd_escape {bytes : List UInt8} {q : UInt8} {i : Nat}
    (h : bytes[i]? = some '\\'.toUInt8) :
    stringEnd bytes q i = stringEnd bytes q (i + 2) := by
  obtain ⟨hi, hb⟩ := List.getElem?_eq_some_iff.mp h
  rw [stringEnd, dif_pos hi, if_pos hb]

theorem stringEnd_step {bytes : List UInt8} {q b : UInt8} {i : Nat} (h : bytes[i]? = some b)
    (hb : b ∉ ['\\'.toUInt8, q]) : stringEnd bytes q i = stringEnd bytes q (i + 1) := by
  obtain ⟨hi, rfl⟩ := List.getElem?_eq_some_iff.mp h
  simp only [List.mem_cons, List.not_mem_nil, or_false, not_or] at hb
  rw [stringEnd, dif_pos hi, if_neg hb.1, if_neg hb.2]

theorem stringEnd_quote {bytes : List UInt8} {q : UInt8} {i : Nat} (h : bytes[i]? = some q)
    (hq : q ≠ '\\'.toUInt8) : stringEnd bytes q i = i + 1 := by
  obtain ⟨hi, rfl⟩ := List.getElem?_eq_some_iff.mp h
  rw [stringEnd, dif_pos hi, if_neg hq, if_pos rfl]

def stringLength (quote : Char) (cs : List Char) : Nat := (stringPlan quote cs).length

theorem stringLength_escape (quote d : Char) (cs : List Char) :
    stringLength quote ('\\' :: d :: cs) = stringLength quote cs + 2 := by
  unfold stringLength
  cases cs with
  | nil => simp [stringPlan]
  | cons e cs => rw [stringPlan_escape quote d (List.cons_ne_nil e cs)]; rfl

include hslash in
theorem stringLength_quote (cs : List Char) : stringLength quote (quote :: cs) = 1 := by
  rw [stringLength, stringPlan_quote hslash]
  rfl

theorem stringLength_other {c : Char} (hc : c ≠ '\\') (hq : c ≠ quote) (cs : List Char) :
    stringLength quote (c :: cs) = stringLength quote cs + 1 := by
  unfold stringLength
  cases cs with
  | nil => simp [stringPlan, hq]
  | cons d cs => rw [stringPlan_other hc hq (List.cons_ne_nil d cs)]; rfl

include hquote in
/-- Two bytes behind a backslash the cursor may be inside a character, and passes over what is left
of it. -/
theorem stringEnd_over (front : List UInt8) (d : Char) (cs : List Char) :
    stringEnd (front ++ bytes ('\\' :: d :: cs)) quote.toUInt8 (front.length + 2) =
      stringEnd (((front ++ ['\\'.toUInt8]) ++ String.utf8EncodeChar d) ++ bytes cs) quote.toUInt8
        ((front ++ ['\\'.toUInt8]) ++ String.utf8EncodeChar d).length := by
  have hfront : front ++ bytes ('\\' :: d :: cs) =
      (front ++ ['\\'.toUInt8]) ++ bytes (d :: cs) := by
    rw [bytes_cons_ascii (by decide), List.append_assoc, List.singleton_append]
  have hcursor : front.length + 2 = (front ++ ['\\'.toUInt8]).length + 1 := by simp
  rw [hfront, ← grow_front (stringEnd · _), hcursor]
  by_cases hd : d.utf8Size = 1
  · rw [hd]
  · rw [bytes_cons]
    refine pass_wide (k := 1) hd (stringEnd _ _)
      (fun i b hi hb => stringEnd_step hi ?_) d.utf8Size_pos
    exact not_mem_map_of_le ['\\', quote] (utf8Size_escape_or hquote) hb

include hquote hslash in
theorem stringEnd_bytes (front : List UInt8) (cs : List Char) :
    stringEnd (front ++ bytes cs) quote.toUInt8 front.length =
      front.length + byteLength (cs.take (stringLength quote cs)) := by
  have hother : ∀ {c : Char}, c.utf8Size = 1 → c ≠ quote → c.toUInt8 ≠ quote.toUInt8 :=
    fun hc hne h => hne ((toUInt8_inj hc hquote).mp h)
  induction hn : cs.length using Nat.strong_induction_on generalizing front cs with
  | h n ih =>
    subst hn
    cases cs with
    | nil =>
      rw [stringEnd_none (by simp)]
      simp
    | cons c cs =>
      by_cases hq : c = quote
      · subst hq
        rw [stringEnd_quote (by rw [getElem?_here, head?_bytes_ascii hquote])
          (hother (by decide) hslash.symm).symm, stringLength_quote hslash]
        simp [hquote]
      by_cases hc : c = '\\'
      · subst hc
        rw [stringEnd_escape (by rw [getElem?_here, head?_bytes_ascii (by decide)])]
        cases cs with
        | nil =>
          have hsize : '\\'.utf8Size = 1 := by decide
          have hlen : stringLength quote ['\\'] = 1 := by simp [stringLength, stringPlan, hq]
          rw [stringEnd_none, hlen] <;> simp [hsize]
        | cons d cs =>
          rw [stringEnd_over hquote, ih _ (by simp) _ _ rfl, stringLength_escape,
            List.take_succ_cons, List.take_succ_cons, length_front_add, List.length_append]
          simp only [byteLength_cons, List.length_singleton, Nat.add_assoc]
          rfl
      · have hpass : stringEnd (front ++ bytes (c :: cs)) quote.toUInt8 front.length =
            stringEnd (front ++ bytes (c :: cs)) quote.toUInt8 (front.length + c.utf8Size) := by
          apply pass_char (stringEnd _ _) ['\\', quote] (utf8Size_escape_or hquote)
          · simp [hc, hq]
          · exact fun i b => stringEnd_step
        rw [hpass, grow_front (stringEnd · _), ih _ (by simp) _ _ rfl, length_front_add,
          stringLength_other hc hq, List.take_succ_cons, byteLength_cons]

end

/-! ## Attributes -/

theorem attributeEnd_none {bytes : List UInt8} {depth : Int} {i : Nat} (h : bytes.length ≤ i) :
    attributeEnd bytes depth i = bytes.length := by
  rw [attributeEnd, dif_neg (Nat.not_lt.mpr h)]

theorem attributeEnd_cons {bytes : List UInt8} {depth : Int} {i : Nat} {b : UInt8}
    (h : bytes[i]? = some b) :
    attributeEnd bytes depth i =
      if b = '['.toUInt8 then attributeEnd bytes (depth + 1) (i + 1)
      else if b = ']'.toUInt8 then if depth - 1 = 0 then i + 1
        else attributeEnd bytes (depth - 1) (i + 1)
      else if b = '\''.toUInt8 ∨ b = '"'.toUInt8 then attributeEnd bytes depth
        (stringEnd bytes b (i + 1))
      else attributeEnd bytes depth (i + 1) := by
  obtain ⟨hi, rfl⟩ := List.getElem?_eq_some_iff.mp h
  rw [attributeEnd, dif_pos hi]

theorem attributeEnd_step {bytes : List UInt8} {depth : Int} {i : Nat} {b : UInt8}
    (h : bytes[i]? = some b) (hb : b ∉ ['['.toUInt8, ']'.toUInt8, '\''.toUInt8, '"'.toUInt8]) :
    attributeEnd bytes depth i = attributeEnd bytes depth (i + 1) := by
  simp only [List.mem_cons, List.not_mem_nil, or_false, not_or] at hb
  rw [attributeEnd_cons h, if_neg hb.1, if_neg hb.2.1, if_neg (not_or.mpr hb.2.2)]

theorem attributeLength_cons {depth : Nat} {quote : Option Char} {c : Char}
    (hescape : quote.isSome → c ≠ '\\') (hclose : quote = none → c = ']' → 1 < depth)
    (cs : List Char) :
    attributeLength depth quote (c :: cs) =
      attributeLength (attributeStep depth c quote).1 (attributeStep depth c quote).2 cs + 1 := by
  simpa [attributePlan] using congrArg List.length (attributePlan_cons hescape hclose cs)

theorem attributeLength_string {quote : Char} (hslash : quote ≠ '\\') (depth : Nat)
    (cs : List Char) :
    attributeLength depth (some quote) cs =
      stringLength quote cs + attributeLength depth none (cs.drop (stringLength quote cs)) := by
  induction hn : cs.length using Nat.strong_induction_on generalizing cs with
  | h n ih =>
    subst hn
    cases cs with
    | nil => rfl
    | cons c cs =>
      by_cases hq : c = quote
      · subst hq
        rw [attributeLength_cons (fun _ => hslash) (by simp), stringLength_quote hslash,
          Nat.add_comm]
        simp [attributeStep]
      by_cases hc : c = '\\'
      · subst hc
        cases cs with
        | nil =>
          have hlen : stringLength quote ['\\'] = 1 := by simp [stringLength, stringPlan, hq]
          rw [hlen]
          rfl
        | cons d cs =>
          rw [attributeLength, if_pos rfl, stringLength_escape, ih _ (by simp) _ rfl]
          simp only [List.drop_succ_cons]
          omega
      · have hstep : attributeStep depth c (some quote) = (depth, some quote) := by
          simp [attributeStep, hq]
        rw [attributeLength_cons (fun _ => hc) (by simp), hstep, stringLength_other hc hq,
          ih _ (by simp) _ rfl, List.drop_succ_cons]
        omega

theorem attributeEnd_string {c : Char} (hstring : c = '\'' ∨ c = '"') (front : List UInt8)
    (depth : Int) (cs : List Char) :
    attributeEnd (front ++ bytes (c :: cs)) depth front.length =
      attributeEnd
        ((front ++ bytes (c :: cs.take (stringLength c cs))) ++ bytes (cs.drop (stringLength c cs)))
        depth (front ++ bytes (c :: cs.take (stringLength c cs))).length := by
  have hsize : c.utf8Size = 1 := by rcases hstring with rfl | rfl <;> decide
  have hslash : c ≠ '\\' := by rcases hstring with rfl | rfl <;> decide
  have hbyte : c.toUInt8 ≠ '['.toUInt8 ∧ c.toUInt8 ≠ ']'.toUInt8 ∧
      (c.toUInt8 = '\''.toUInt8 ∨ c.toUInt8 = '"'.toUInt8) := by
    rcases hstring with rfl | rfl <;> decide
  have hend := stringEnd_bytes hsize hslash (front ++ String.utf8EncodeChar c) cs
  rw [← grow_front (stringEnd · _), length_front_add, hsize] at hend
  rw [attributeEnd_cons (by rw [getElem?_here, head?_bytes_ascii hsize]), if_neg hbyte.1,
    if_neg hbyte.2.1, if_pos hbyte.2.2, hend, ← grow_front_text (attributeEnd · _),
    List.cons_append, List.take_append_drop, byteLength_cons, hsize]

theorem attributeEnd_pass {depth : Nat} {c : Char} (hstring : ¬(c = '\'' ∨ c = '"'))
    (hdeep : c = ']' → 1 < depth) (front : List UInt8) (cs : List Char) :
    ∃ deep : Nat, attributeStep depth c none = (deep, none) ∧ (0 < depth → 0 < deep) ∧
      attributeEnd (front ++ bytes (c :: cs)) depth front.length =
        attributeEnd (front ++ bytes (c :: cs)) deep (front.length + c.utf8Size) := by
  by_cases hopen : c = '['
  · subst hopen
    refine ⟨depth + 1, rfl, fun _ => Nat.succ_pos depth, ?_⟩
    rw [attributeEnd_cons (by rw [getElem?_here, head?_bytes_ascii (by decide)]), if_pos rfl]
    rfl
  by_cases hshut : c = ']'
  · subst hshut
    have hlt := hdeep rfl
    refine ⟨depth - 1, rfl, fun _ => by omega, ?_⟩
    rw [attributeEnd_cons (by rw [getElem?_here, head?_bytes_ascii (by decide)]),
      if_neg (by decide), if_pos rfl, if_neg (by omega), Int.natCast_sub hlt.le]
    rfl
  · have hkept : ¬(c = '\'' || c = '"') = true := by simpa using hstring
    refine ⟨depth, ?_, id, ?_⟩
    · rw [attributeStep, if_neg hopen, if_neg hshut, if_neg hkept]
    · apply pass_char (attributeEnd _ _) ['[', ']', '\'', '"'] (by decide)
      · simp [hopen, hshut, hstring]
      · exact fun i b => attributeEnd_step

theorem attributeEnd_bytes (front : List UInt8) {depth : Nat} (hdepth : 0 < depth)
    (cs : List Char) :
    attributeEnd (front ++ bytes cs) depth front.length =
      front.length + byteLength (cs.take (attributeLength depth none cs)) := by
  induction hn : cs.length using Nat.strong_induction_on generalizing front depth cs with
  | h n ih =>
    subst hn
    cases cs with
    | nil =>
      rw [attributeEnd_none (by simp)]
      simp
    | cons c cs =>
      by_cases hclose : c = ']' ∧ depth = 1
      · obtain ⟨rfl, rfl⟩ := hclose
        rw [attributeEnd_cons (by rw [getElem?_here, head?_bytes_ascii (by decide)]),
          if_neg (by decide), if_pos rfl, if_pos (by rfl)]
        rfl
      have hdeep : c = ']' → 1 < depth := by
        intro hc
        have : depth ≠ 1 := fun h => hclose ⟨hc, h⟩
        omega
      rw [attributeLength_cons (by simp) (fun _ => hdeep), List.take_succ_cons, byteLength_cons]
      by_cases hstring : c = '\'' ∨ c = '"'
      · have hstep : attributeStep depth c none = (depth, some c) := by
          rcases hstring with rfl | rfl <;> rfl
        have hslash : c ≠ '\\' := by rcases hstring with rfl | rfl <;> decide
        simp only [hstep]
        rw [attributeLength_string hslash, attributeEnd_string hstring,
          ih _ (by simp) _ hdepth _ rfl, List.take_add, byteLength_append, List.length_append,
          length_bytes, byteLength_cons]
        omega
      · obtain ⟨deep, hstep, hpos, hpass⟩ := attributeEnd_pass hstring hdeep front cs
        rw [hstep, hpass, grow_front (attributeEnd · _), ih _ (by simp) _ (hpos hdepth) _ rfl,
          length_front_add]

end SignatureInference.Source.Buffer
