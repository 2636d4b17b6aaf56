import SignatureInference.Proofs.Source.Headers
import SignatureInference.Source.Mask

/-! # Tokens and what follows them

The marks of a token are planned with the whole text at hand. A token that ends in the first part of
a text is planned the same whatever the second part is, as long as the second part does not begin
with a character that joins the token. A token that reaches into the second part hides the character
there, except for the first line of a heredoc.
-/
namespace SignatureInference.Source

open Text

/-- A character that can end or begin a token together with the one in front of it. -/
def joins (d : Char) : Bool := d == '>' || d == '/' || d == '*' || d == '[' || d == '<'

/-- A character of code that is part of no token. -/
def isCode (c : Char) : Bool := c == '$' || c == '&' || c == '.' || c == ')'

theorem isCode_cases {c : Char} (h : isCode c = true) : c = '$' ∨ c = '&' ∨ c = '.' ∨ c = ')' := by
  simpa [isCode, or_assoc] using h

theorem isIndent_of_isCode {c : Char} (h : isCode c = true) : isIndent c = false := by
  rcases isCode_cases h with rfl | rfl | rfl | rfl <;> decide

theorem isIdentPart_of_isCode {c : Char} (h : isCode c = true) : isIdentPart c = false := by
  rcases isCode_cases h with rfl | rfl | rfl | rfl <;> decide

/-- Two parts of a text that no token joins. -/
structure Apart (s w : List Char) : Prop where
  ne_nil : w ≠ []
  head : ∀ d ∈ w.head?, joins d = false
  label : ∀ e ∈ s.getLast?, ∀ d ∈ w.head?, isIdentPart e = true → isIdentPart d = false

theorem Apart.of_append {v s w : List Char} (h : Apart (v ++ s) w) : Apart s w := by
  refine ⟨h.ne_nil, h.head, fun e he => h.label e ?_⟩
  rw [List.getLast?_append, Option.mem_def.mp he]
  rfl

theorem Apart.of_cons {e : Char} {s w : List Char} (h : Apart (e :: s) w) : Apart s w :=
  h.of_append (v := [e])

theorem Apart.head_ne {s w : List Char} (h : Apart s w) {d : Char} (hd : joins d = true) :
    w.head? ≠ some d := by
  intro hw
  rw [h.head d hw] at hd
  cases hd

theorem apart_code {c : Char} (hc : isCode c = true) (s r : List Char) : Apart s (c :: r) := by
  refine ⟨by simp, ?_, ?_⟩
  · rcases isCode_cases hc with rfl | rfl | rfl | rfl <;> simp [joins]
  · intro e _ d hd _
    cases hd
    exact isIdentPart_of_isCode hc

/-- Two second parts of a text in view: one that is given, and one that begins with code. -/
def Tail (w₀ w : List Char) : Prop := w = w₀ ∨ ∃ c z, w = c :: z ∧ isCode c = true

theorem Apart.of_tail {s w₀ w : List Char} (h : Apart s w₀) (hw : Tail w₀ w) : Apart s w := by
  rcases hw with rfl | ⟨c, z, rfl, hc⟩
  · exact h
  · exact apart_code hc s z

/-- A plan ends in the first part of a text, or it hides the code that the second part begins
with. -/
def Settled (w₀ : List Char) (f : List Char → List Ink) (s : List Char) : Prop :=
  (∃ l, l.length ≤ s.length ∧ ∀ w, Tail w₀ w → f (s ++ w) = l) ∨
    ∀ c r, r ≠ [] → isCode c = true → (f (s ++ c :: r))[s.length]? = some .blank

section

variable {w₀ : List Char} {f g : List Char → List Ink} {v s : List Char}

theorem Settled.append (h : Settled w₀ g s) (inks : List Ink) (hlen : inks.length = v.length)
    (hstep : ∀ w, Tail w₀ w → f (v ++ (s ++ w)) = inks ++ g (s ++ w)) : Settled w₀ f (v ++ s) := by
  rcases h with ⟨l, hl, hw⟩ | hw
  · refine .inl ⟨inks ++ l, by simpa [hlen] using hl, fun w ht => ?_⟩
    rw [List.append_assoc, hstep w ht, hw w ht]
  · refine .inr fun c r hr hc => ?_
    rw [List.append_assoc, hstep _ (.inr ⟨c, r, rfl, hc⟩), List.length_append, ← hlen,
      List.getElem?_append_right (by omega), Nat.add_sub_cancel_left]
    exact hw c r hr hc

theorem Settled.cons {e : Char} (h : Settled w₀ g s) (ink : Ink)
    (hstep : ∀ w, Tail w₀ w → f (e :: (s ++ w)) = ink :: g (s ++ w)) : Settled w₀ f (e :: s) :=
  Settled.append (v := [e]) h [ink] rfl hstep

theorem settled_of_eq (l : List Ink) (hl : l.length ≤ s.length)
    (h : ∀ w, Tail w₀ w → f (s ++ w) = l) : Settled w₀ f s :=
  .inl ⟨l, hl, h⟩

theorem settled_nil
    (h : ∀ c r, r ≠ [] → isCode c = true → ∃ inks, f (c :: r) = .blank :: inks) :
    Settled w₀ f [] := by
  refine .inr fun c r hr hc => ?_
  obtain ⟨inks, hf⟩ := h c r hr hc
  rw [List.nil_append, hf]
  rfl

end

/-! ## Comments -/

def lineCommentPlan (cs : List Char) : List Ink := List.replicate (lineCommentLength cs) .blank

theorem lineCommentPlan_cons {e : Char} {cs : List Char} (hline : e ≠ '\n')
    (hend : e = '?' → cs.head? ≠ some '>') :
    lineCommentPlan (e :: cs) = .blank :: lineCommentPlan cs := by
  rw [lineCommentPlan, lineCommentLength.eq_4]
  · rfl
  · exact hline
  · rintro tail rfl rfl
    exact hend rfl rfl

theorem settled_lineCommentPlan {w₀ s : List Char} (h₀ : Apart s w₀) :
    Settled w₀ lineCommentPlan s := by
  induction s with
  | nil =>
    refine settled_nil fun c r _ hc => ⟨_, lineCommentPlan_cons ?_ ?_⟩
    · rcases isCode_cases hc with rfl | rfl | rfl | rfl <;> decide
    · rintro rfl
      exact absurd hc (by decide)
  | cons e s ih =>
    by_cases hline : e = '\n'
    · exact settled_of_eq [] (by simp) fun w _ => by rw [hline]; rfl
    by_cases hend : e = '?' ∧ s.head? = some '>'
    · obtain ⟨rfl, hs⟩ := hend
      obtain ⟨s, rfl⟩ := List.head?_eq_some_iff.mp hs
      exact settled_of_eq [] (by simp) fun w _ => rfl
    refine (ih h₀.of_cons).cons .blank fun w hw => lineCommentPlan_cons hline fun he => ?_
    cases s with
    | nil => exact (h₀.of_tail hw).head_ne (by decide)
    | cons x s => exact fun h => hend ⟨he, h⟩

def blockCommentPlan (cs : List Char) : List Ink := List.replicate (blockCommentLength cs) .blank

theorem blockCommentPlan_cons {e : Char} {cs : List Char} (hend : e = '*' → cs.head? ≠ some '/') :
    blockCommentPlan (e :: cs) = .blank :: blockCommentPlan cs := by
  rw [blockCommentPlan, blockCommentLength.eq_3]
  · rfl
  · rintro tail rfl rfl
    exact hend rfl rfl

theorem settled_blockCommentPlan {w₀ s : List Char} (h₀ : Apart s w₀) :
    Settled w₀ blockCommentPlan s := by
  induction s with
  | nil =>
    refine settled_nil fun c r _ hc => ⟨_, blockCommentPlan_cons ?_⟩
    rintro rfl
    exact absurd hc (by decide)
  | cons e s ih =>
    by_cases hend : e = '*' ∧ s.head? = some '/'
    · obtain ⟨rfl, hs⟩ := hend
      obtain ⟨s, rfl⟩ := List.head?_eq_some_iff.mp hs
      exact settled_of_eq [.blank, .blank] (by simp) fun w _ => rfl
    refine (ih h₀.of_cons).cons .blank fun w hw => blockCommentPlan_cons fun he => ?_
    cases s with
    | nil => exact (h₀.of_tail hw).head_ne (by decide)
    | cons x s => exact fun h => hend ⟨he, h⟩

/-! ## Strings -/

theorem stringPlan_quote {quote : Char} (hquote : quote ≠ '\\') (w : List Char) :
    stringPlan quote (quote :: w) = [.keep] := by
  match w with
  | [] => simp [stringPlan]
  | [d] => simp [stringPlan, hquote]
  | d :: e :: w => simp [stringPlan, hquote]

theorem stringPlan_escape (quote d : Char) {w : List Char} (hw : w ≠ []) :
    stringPlan quote ('\\' :: d :: w) = .blank :: .blank :: stringPlan quote w := by
  rw [stringPlan, if_pos rfl]
  exact hw

theorem stringPlan_other {quote e : Char} (he : e ≠ '\\') (hq : e ≠ quote) {w : List Char}
    (hw : w ≠ []) : stringPlan quote (e :: w) = .blank :: stringPlan quote w := by
  match w with
  | [d] => simp [stringPlan, he, hq]
  | d :: f :: w =>
    rw [stringPlan, if_neg he, if_neg hq]
    exact List.cons_ne_nil f w

theorem settled_stringPlan {w₀ : List Char} {quote : Char} (hquote : quote ≠ '\\')
    (hcode : isCode quote = false) : (s : List Char) → Apart s w₀ → Settled w₀ (stringPlan quote) s
  | [], _ => by
    refine settled_nil fun c r hr hc => ⟨_, stringPlan_other ?_ ?_ hr⟩
    · rcases isCode_cases hc with rfl | rfl | rfl | rfl <;> decide
    · rintro rfl
      rw [hc] at hcode
      cases hcode
  | e :: s, h₀ => by
    by_cases hq : e = quote
    · subst hq
      exact settled_of_eq [.keep] (by simp) fun w _ => stringPlan_quote hquote (s ++ w)
    by_cases he : e = '\\'
    · subst he
      match s with
      | [] =>
        refine .inr fun c r hr _ => ?_
        rw [List.cons_append, List.nil_append, stringPlan_escape quote c hr]
        rfl
      | d :: s =>
        refine (settled_stringPlan hquote hcode s h₀.of_cons.of_cons).append (v := ['\\', d])
          [.blank, .blank] rfl fun w hw => ?_
        exact stringPlan_escape quote d (by simp [(h₀.of_tail hw).ne_nil])
    · refine (settled_stringPlan hquote hcode s h₀.of_cons).cons .blank fun w hw => ?_
      exact stringPlan_other he hq (by simp [(h₀.of_tail hw).ne_nil])

/-! ## Attributes -/

def attributePlan (depth : Nat) (quote : Option Char) (cs : List Char) : List Ink :=
  List.replicate (attributeLength depth quote cs) .blank

def attributeStep (depth : Nat) (e : Char) : Option Char → Nat × Option Char
  | some q => (depth, if e = q then none else some q)
  | none =>
    if e = '[' then (depth + 1, none)
    else if e = ']' then (depth - 1, none)
    else (depth, if e = '\'' || e = '"' then some e else none)

theorem attributePlan_escape (depth : Nat) (q d : Char) (w : List Char) :
    attributePlan depth (some q) ('\\' :: d :: w) =
      .blank :: .blank :: attributePlan depth (some q) w := by
  rw [attributePlan, attributeLength, if_pos rfl]
  rfl

theorem attributePlan_close {depth : Nat} (h : depth ≤ 1) (w : List Char) :
    attributePlan depth none (']' :: w) = [.blank] := by
  rw [attributePlan, attributeLength, if_neg (by decide), if_pos rfl, if_pos h]
  rfl

theorem attributePlan_cons {depth : Nat} {quote : Option Char} {e : Char}
    (hescape : quote.isSome → e ≠ '\\') (hclose : quote = none → e = ']' → 1 < depth)
    (w : List Char) :
    attributePlan depth quote (e :: w) =
      .blank :: attributePlan (attributeStep depth e quote).1
        (attributeStep depth e quote).2 w := by
  suffices attributeLength depth quote (e :: w) =
      attributeLength (attributeStep depth e quote).1 (attributeStep depth e quote).2 w + 1 by
    rw [attributePlan, this]
    rfl
  cases quote with
  | some q =>
    have he := hescape rfl
    cases w with
    | nil => simp [attributeLength, he]
    | cons d w => rw [attributeLength, if_neg he]; rfl
  | none =>
    have hdepth : e = ']' → ¬depth ≤ 1 := fun h => by have := hclose rfl h; omega
    rw [attributeLength, attributeStep]
    split
    · rfl
    · split
      · next h => rw [if_neg (hdepth h)]
      · rfl

theorem settled_attributePlan {w₀ : List Char} (depth : Nat) (quote : Option Char) :
    (s : List Char) → Settled w₀ (attributePlan depth quote) s
  | [] => by
    refine settled_nil fun c r _ hc => ⟨_, attributePlan_cons ?_ ?_ r⟩
    · rintro - rfl
      exact absurd hc (by decide)
    · rintro - rfl
      exact absurd hc (by decide)
  | e :: s => by
    by_cases hescape : quote.isSome ∧ e = '\\'
    · obtain ⟨hq, rfl⟩ := hescape
      obtain ⟨q, rfl⟩ := Option.isSome_iff_exists.mp hq
      match s with
      | [] => exact .inr fun c r _ _ => by simp [attributePlan_escape]
      | d :: s =>
        exact (settled_attributePlan depth (some q) s).append (v := ['\\', d]) [.blank, .blank] rfl
          fun w _ => attributePlan_escape depth q d (s ++ w)
    by_cases hclose : quote = none ∧ e = ']' ∧ depth ≤ 1
    · obtain ⟨rfl, rfl, hdepth⟩ := hclose
      exact settled_of_eq [.blank] (by simp) fun w _ => attributePlan_close hdepth (s ++ w)
    · refine (settled_attributePlan _ _ s).cons .blank fun w _ => attributePlan_cons ?_ ?_ (s ++ w)
      · exact fun h he => hescape ⟨h, he⟩
      · intro h he
        by_contra hd
        exact hclose ⟨h, he, by omega⟩

/-! ## Heredocs -/

section

variable {label : List Char}

/-- Whether a text begins with the label, and where the label ends, is decided in the first part of
the text unless that part is a beginning of the label. -/
theorem closesHeredoc_cases {u : List Char} (h : ¬u <+: label) :
    (∀ w, closesHeredoc label (u ++ w) = false) ∨
      (∀ w, closesHeredoc label (u ++ w) = true) ∧ label.length ≤ u.length := by
  induction label generalizing u with
  | nil =>
    cases u with
    | nil => exact absurd List.prefix_rfl h
    | cons c u =>
      by_cases hc : isIdentPart c = true
      · exact .inl fun w => by simp [closesHeredoc, dropHead?, hc]
      · exact .inr ⟨fun w => by simpa [closesHeredoc, dropHead?] using hc, by simp⟩
  | cons d label ih =>
    cases u with
    | nil => exact absurd List.nil_prefix h
    | cons c u =>
      by_cases hd : d = c
      · subst hd
        have hstep : ∀ w, closesHeredoc (d :: label) (d :: (u ++ w)) =
            closesHeredoc label (u ++ w) := by
          intro w
          simp [closesHeredoc, dropHead?]
        rcases ih (u := u) (fun hp => h (List.cons_prefix_cons.mpr ⟨rfl, hp⟩)) with hw | ⟨hw, hlen⟩
        · exact .inl fun w => (hstep w).trans (hw w)
        · exact .inr ⟨fun w => (hstep w).trans (hw w), by simpa using hlen⟩
      · exact .inl fun w => by simp [closesHeredoc, dropHead?, hd]

theorem dropHead?_append_append (u v z : List Char) :
    dropHead? (u ++ v) (u ++ z) = dropHead? v z := by
  induction u with
  | nil => rfl
  | cons d u ih => simpa [dropHead?] using ih

theorem heredocBodyPlan_next {atLineStart : Bool} {e : Char} {cs : List Char}
    (h : (atLineStart && closesHeredoc label ((e :: cs).dropWhile isIndent)) = false) :
    heredocBodyPlan label atLineStart (e :: cs) =
      .blank :: heredocBodyPlan label (e == '\n') cs := by
  rw [heredocBodyPlan, if_neg (by simp [h])]

theorem heredocBodyPlan_close {cs : List Char} (hne : cs ≠ [])
    (h : closesHeredoc label (cs.dropWhile isIndent) = true) :
    heredocBodyPlan label true cs =
      List.replicate (cs.takeWhile isIndent).length .blank ++
        List.replicate label.length .keep := by
  obtain ⟨e, cs, rfl⟩ := List.exists_cons_of_ne_nil hne
  rw [heredocBodyPlan, if_pos (by simpa using h)]

theorem heredocBodyPlan_line {s : List Char} (hs : '\n' ∉ s) (w : List Char) :
    heredocBodyPlan label false (s ++ w) =
      List.replicate s.length .blank ++ heredocBodyPlan label false w := by
  induction s with
  | nil => rfl
  | cons e s ih =>
    have he : (e == '\n') = false := by
      simp only [beq_eq_false_iff_ne]
      rintro rfl
      exact hs List.mem_cons_self
    rw [List.cons_append, heredocBodyPlan_next rfl, he, ih fun h => hs (List.mem_cons_of_mem _ h)]
    rfl

theorem takeWhile_append_of_dropWhile_ne_nil {p : Char → Bool} {cs : List Char}
    (h : cs.dropWhile p ≠ []) (w : List Char) :
    (cs ++ w).takeWhile p = cs.takeWhile p ∧ (cs ++ w).dropWhile p = cs.dropWhile p ++ w := by
  obtain ⟨x, xs, hx⟩ := List.exists_cons_of_ne_nil h
  have hxp : p x = false := by
    have := List.head?_dropWhile_not p cs
    rw [hx] at this
    simpa using this
  have hcs : cs ++ w = cs.takeWhile p ++ x :: (xs ++ w) := by
    rw [← List.cons_append, ← hx, ← List.append_assoc, List.takeWhile_append_dropWhile]
  have hall : ∀ d ∈ cs.takeWhile p, p d = true := fun d hd => List.mem_takeWhile_imp hd
  rw [hcs, takeWhile_stop hxp, dropWhile_stop hxp, List.takeWhile_eq_self_iff.mpr hall,
    List.dropWhile_eq_nil_iff.mpr hall, hx]
  simp

theorem closesHeredoc_append {w : List Char} (hw : ∀ d ∈ w.head?, isIdentPart d = false) :
    closesHeredoc label (label ++ w) = true := by
  rw [closesHeredoc, dropHead?_append]
  cases w with
  | nil => rfl
  | cons d w => simp [hw d rfl]

variable (hlabel : ∀ h ∈ label, isIdentPart h = true)

include hlabel

theorem closesHeredoc_code {c : Char} (hc : isCode c = true) {u : List Char} (hu : u <+: label)
    (hne : u ≠ label) (r : List Char) : closesHeredoc label (u ++ c :: r) = false := by
  obtain ⟨v, rfl⟩ := hu
  cases v with
  | nil => simp at hne
  | cons d v =>
    have hd : d ≠ c := by
      rintro rfl
      have := hlabel d (by simp)
      rw [isIdentPart_of_isCode hc] at this
      cases this
    simp [closesHeredoc, dropHead?_append_append, dropHead?, hd]

/-- A part of a text that may be the closing label of a heredoc, or a beginning of it. -/
theorem settled_heredocBodyPlan_prefix (hne : label ≠ []) {w₀ : List Char} {e : Char}
    {s : List Char} (h₀ : Apart (e :: s) w₀) (hp : (e :: s).dropWhile isIndent <+: label) :
    Settled w₀ (heredocBodyPlan label true) (e :: s) := by
  have hsplit := List.takeWhile_append_dropWhile (p := isIndent) (l := e :: s)
  by_cases hu : (e :: s).dropWhile isIndent = label
  · have happend := takeWhile_append_of_dropWhile_ne_nil (hu ▸ hne)
    refine settled_of_eq (List.replicate ((e :: s).takeWhile isIndent).length .blank ++
      List.replicate label.length .keep) ?_ fun w hw => ?_
    · rw [← hu, List.length_append, List.length_replicate, List.length_replicate,
        ← List.length_append, hsplit]
    · rw [heredocBodyPlan_close (by simp), (happend w).1]
      rw [(happend w).2, hu]
      refine closesHeredoc_append fun d hd => ?_
      refine (h₀.of_tail hw).label (label.getLast hne) ?_ d hd (hlabel _ (List.getLast_mem hne))
      rw [← hsplit, hu, List.getLast?_append, List.getLast?_eq_some_getLast hne]
      rfl
  · have hline : '\n' ∉ e :: s := by
      intro hmem
      rw [← hsplit] at hmem
      rcases List.mem_append.mp hmem with hmem | hmem
      · exact absurd (List.mem_takeWhile_imp hmem) (by decide)
      · exact absurd (hlabel _ (hp.subset hmem)) (by decide)
    have he : (e == '\n') = false := by
      simp only [beq_eq_false_iff_ne]
      rintro rfl
      exact hline List.mem_cons_self
    refine .inr fun c r _ hc => ?_
    have hno : closesHeredoc label ((e :: (s ++ c :: r)).dropWhile isIndent) = false := by
      rw [← List.cons_append, dropWhile_stop (isIndent_of_isCode hc)]
      exact closesHeredoc_code hlabel hc hp hu r
    rw [List.cons_append, heredocBodyPlan_next (by simpa using hno), he,
      heredocBodyPlan_line fun h => hline (List.mem_cons_of_mem _ h), heredocBodyPlan_next rfl]
    simp

theorem settled_heredocBodyPlan (hne : label ≠ []) {w₀ : List Char} (atLineStart : Bool)
    {s : List Char} (h₀ : Apart s w₀) : Settled w₀ (heredocBodyPlan label atLineStart) s := by
  induction s generalizing atLineStart with
  | nil =>
    refine settled_nil fun c r _ hc => ⟨_, heredocBodyPlan_next ?_⟩
    rw [List.dropWhile_cons_of_neg (by simp [isIndent_of_isCode hc]),
      ← List.nil_append (c :: r), closesHeredoc_code hlabel hc List.nil_prefix (Ne.symm hne),
      Bool.and_false]
  | cons e s ih =>
    cases atLineStart with
    | false => exact (ih _ h₀.of_cons).cons .blank fun w _ => heredocBodyPlan_next rfl
    | true =>
      by_cases hp : (e :: s).dropWhile isIndent <+: label
      · exact settled_heredocBodyPlan_prefix hlabel hne h₀ hp
      · have hu : (e :: s).dropWhile isIndent ≠ [] := fun h => hp (h ▸ List.nil_prefix)
        have happend := takeWhile_append_of_dropWhile_ne_nil hu
        rcases closesHeredoc_cases hp with hno | ⟨hyes, hlen⟩
        · refine (ih _ h₀.of_cons).cons .blank fun w _ => heredocBodyPlan_next ?_
          rw [← List.cons_append, (happend w).2, hno, Bool.and_false]
        · refine settled_of_eq (List.replicate ((e :: s).takeWhile isIndent).length .blank ++
            List.replicate label.length .keep) ?_ fun w _ => ?_
          · have hsplit := congrArg List.length
              (List.takeWhile_append_dropWhile (p := isIndent) (l := e :: s))
            rw [List.length_append] at hsplit
            rw [List.length_append, List.length_replicate, List.length_replicate]
            omega
          · rw [heredocBodyPlan_close (by simp), (happend w).1]
            rw [(happend w).2, hyes]

end

/-- The text behind the indentation and the quote that may open a heredoc. -/
def afterQuote (cs : List Char) : List Char :=
  match cs.dropWhile isIndent with
  | c :: ds => if c = '\'' || c = '"' then ds else c :: ds
  | [] => []

/-- The length of what is left of the first line of a heredoc, and the marks behind it. -/
def headerRest (label w : List Char) : Nat × List Ink :=
  match w.dropWhile (· != '\n') with
  | [] => (w.length, [])
  | _ :: body => (w.length - body.length, heredocBodyPlan label true body)

theorem headerRest_append (label : List Char) {v : List Char} (hv : '\n' ∉ v) (w : List Char) :
    headerRest label (v ++ w) = (v.length + (headerRest label w).1, (headerRest label w).2) := by
  have hall : ∀ d ∈ v, (d != '\n') = true := by
    intro d hd
    simp only [bne_iff_ne]
    rintro rfl
    exact hv hd
  unfold headerRest
  rw [List.dropWhile_append_of_pos hall, List.length_append]
  cases hd : w.dropWhile (· != '\n') with
  | nil => rfl
  | cons d body =>
    have hle := (List.dropWhile_sublist (l := w) (· != '\n')).length_le
    rw [hd, List.length_cons] at hle
    simp only [Prod.mk.injEq, and_true]
    omega

theorem headerRest_line_feed (label body : List Char) :
    headerRest label ('\n' :: body) = (1, heredocBodyPlan label true body) := by
  simp [headerRest]

theorem heredocPlan_eq (cs : List Char) :
    heredocPlan cs =
      if (afterQuote cs).takeWhile isIdentPart = [] then []
      else
        List.replicate (cs.length - (afterQuote cs).length +
          (headerRest ((afterQuote cs).takeWhile isIdentPart) (afterQuote cs)).1) .keep ++
          (headerRest ((afterQuote cs).takeWhile isIdentPart) (afterQuote cs)).2 := by
  have hle : (afterQuote cs).length ≤ cs.length := by
    have := (List.dropWhile_sublist (l := cs) isIndent).length_le
    unfold afterQuote
    split
    · next c ds hd =>
      rw [hd] at this
      split
      · exact Nat.le_of_succ_le this
      · exact this
    · simp
  change (if (afterQuote cs).takeWhile isIdentPart = [] then []
    else
      match (afterQuote cs).dropWhile (· != '\n') with
      | [] => List.replicate cs.length .keep
      | _ :: body =>
        List.replicate (cs.length - body.length) .keep ++
          heredocBodyPlan ((afterQuote cs).takeWhile isIdentPart) true body) = _
  split
  · rfl
  · unfold headerRest
    cases hd : (afterQuote cs).dropWhile (· != '\n') with
    | nil => simp [Nat.sub_add_cancel hle]
    | cons d body =>
      have hbody := (List.dropWhile_sublist (l := afterQuote cs) (· != '\n')).length_le
      rw [hd, List.length_cons] at hbody
      simp only
      congr 2
      omega

/-- A plan that keeps the first line of a heredoc, which goes on in the second part of a text. -/
def KeepsLine (w₀ : List Char) (f : List Char → List Ink) (s : List Char) : Prop :=
  ∃ label, ∀ w, Tail w₀ w → f (s ++ w) =
    List.replicate (s.length + (headerRest label w).1) .keep ++ (headerRest label w).2

theorem exists_afterQuote (u : List Char) :
    ∃ l r, u = l ++ r ∧ ∀ x z, isStop x = true ∨ isCode x = true →
      afterQuote (u ++ x :: z) = r ++ x :: z := by
  have hplain : ∀ {x}, isStop x = true ∨ isCode x = true →
      isIndent x = false ∧ ¬(x = '\'' || x = '"') = true := by
    rintro x (hx | hx)
    · rcases isStop_cases hx with rfl | rfl | rfl <;> decide
    · rcases isCode_cases hx with rfl | rfl | rfl | rfl <;> decide
  have hsplit := List.takeWhile_append_dropWhile (p := isIndent) (l := u)
  cases hd : u.dropWhile isIndent with
  | nil =>
    refine ⟨u, [], by simp, fun x z hx => ?_⟩
    rw [afterQuote, dropWhile_stop (hplain hx).1, hd]
    simp only [List.nil_append]
    rw [if_neg (hplain hx).2]
  | cons c ds =>
    rw [hd] at hsplit
    by_cases hc : (c = '\'' || c = '"') = true
    · refine ⟨u.takeWhile isIndent ++ [c], ds, by simp [hsplit], fun x z hx => ?_⟩
      rw [afterQuote, dropWhile_stop (hplain hx).1, hd]
      simp only [List.cons_append]
      rw [if_pos hc]
    · refine ⟨u.takeWhile isIndent, c :: ds, hsplit.symm, fun x z hx => ?_⟩
      rw [afterQuote, dropWhile_stop (hplain hx).1, hd]
      simp only [List.cons_append]
      rw [if_neg hc]

/-- The second part of a text does not change the label of a heredoc that the first part begins
with. -/
def KeepsLabel (w₀ s : List Char) : Prop :=
  (∃ x ∈ s, isStop x = true) ∨ ∃ c z, w₀ = c :: z ∧ isCode c = true

theorem exists_label {w₀ s : List Char} (h : KeepsLabel w₀ s) :
    ∃ l r, s = l ++ r ∧ ∀ w, Tail w₀ w →
      afterQuote (s ++ w) = r ++ w ∧ (r ++ w).takeWhile isIdentPart = r.takeWhile isIdentPart := by
  rcases h with ⟨x, hx, hstop⟩ | hcode
  · obtain ⟨u, z, rfl⟩ := List.append_of_mem hx
    obtain ⟨l, r, rfl, hafter⟩ := exists_afterQuote u
    have hident : isIdentPart x = false := by
      rcases isStop_cases hstop with rfl | rfl | rfl <;> decide
    refine ⟨l, r ++ x :: z, by simp, fun w _ => ?_⟩
    simp only [List.append_assoc, List.cons_append, takeWhile_stop hident, and_true]
    rw [← List.append_assoc, hafter x _ (.inl hstop)]
  · obtain ⟨l, r, rfl, hafter⟩ := exists_afterQuote s
    refine ⟨l, r, rfl, fun w hw => ?_⟩
    have hw : ∃ c z, w = c :: z ∧ isCode c = true := by
      rcases hw with rfl | hw
      · exact hcode
      · exact hw
    obtain ⟨c, z, rfl, hc⟩ := hw
    exact ⟨hafter c z (.inr hc), takeWhile_stop (isIdentPart_of_isCode hc) r z⟩

/-- A heredoc closes in the first part of a text, or hides the second part, or goes on in its first
line. -/
theorem heredocPlan_cases {w₀ s : List Char} (h₀ : Apart s w₀) (hs : KeepsLabel w₀ s) :
    Settled w₀ heredocPlan s ∨ KeepsLine w₀ heredocPlan s := by
  obtain ⟨l, r, rfl, hlabel⟩ := exists_label hs
  have hlen : ∀ w : List Char, (l ++ r ++ w).length - (r ++ w).length = l.length := by
    intro w
    simp only [List.length_append]
    omega
  by_cases hempty : r.takeWhile isIdentPart = []
  · refine .inl (settled_of_eq [] (by simp) fun w hw => ?_)
    rw [heredocPlan_eq, (hlabel w hw).1, (hlabel w hw).2, if_pos hempty]
  have heq : ∀ w, Tail w₀ w → heredocPlan (l ++ r ++ w) =
      List.replicate (l.length + (headerRest (r.takeWhile isIdentPart) (r ++ w)).1) .keep ++
        (headerRest (r.takeWhile isIdentPart) (r ++ w)).2 := by
    intro w hw
    rw [heredocPlan_eq, (hlabel w hw).1, (hlabel w hw).2, if_neg hempty, hlen]
  by_cases hline : '\n' ∈ r
  · obtain ⟨v, body, hbody, hv⟩ := List.eq_append_cons_of_mem hline
    have hparts : ∀ d ∈ r.takeWhile isIdentPart, isIdentPart d = true := fun d hd =>
      List.mem_takeWhile_imp hd
    have hs : l ++ r = (l ++ v ++ ['\n']) ++ body := by simp [hbody]
    rw [hs] at heq h₀ ⊢
    refine .inl ((settled_heredocBodyPlan hparts hempty true h₀.of_append).append
      (List.replicate (l.length + (v.length + 1)) .keep) (by simp) fun w hw => ?_)
    rw [← List.append_assoc, heq w hw]
    simp only [hbody, List.append_assoc, List.cons_append, headerRest_append _ hv,
      headerRest_line_feed]
  · refine .inr ⟨r.takeWhile isIdentPart, fun w hw => ?_⟩
    rw [heq w hw, headerRest_append _ hline, List.length_append, Nat.add_assoc]

/-! ## All tokens -/

def beginsToken (e : Char) : Bool :=
  e == '/' || e == '#' || e == '\'' || e == '"' || e == '\x60' || e == '<'

theorem plan_of_not_beginsToken {e : Char} (h : beginsToken e = false) (cs : List Char) :
    plan (e :: cs) = [] := by
  unfold plan
  split <;> simp_all [beginsToken]

theorem plan_slash {cs : List Char} (hline : cs.head? ≠ some '/') (hblock : cs.head? ≠ some '*') :
    plan ('/' :: cs) = [] := by
  unfold plan
  split <;> simp_all

theorem plan_hash {cs : List Char} (h : cs.head? ≠ some '[') :
    plan ('#' :: cs) = .blank :: lineCommentPlan cs := by
  unfold plan
  split <;> simp_all [lineCommentPlan, List.replicate_succ]

theorem plan_angle {cs : List Char} (h : ¬['<', '<'] <+: cs) : plan ('<' :: cs) = [] := by
  unfold plan
  split <;> simp_all

/-- The token at the beginning of a text ends in the first part of the text, or hides the code that
the second part begins with, or is the first line of a heredoc. -/
theorem plan_cases {w₀ s : List Char} (hs : s ≠ []) (h₀ : Apart s w₀)
    (hlabel : ∀ cs, s = '<' :: '<' :: '<' :: cs → KeepsLabel w₀ cs) :
    Settled w₀ plan s ∨ KeepsLine w₀ plan s := by
  obtain ⟨e, s, rfl⟩ := List.exists_cons_of_ne_nil hs
  have hquoted : ∀ {q : Char}, q ≠ '\\' → isCode q = false →
      (∀ cs, plan (q :: cs) = .keep :: stringPlan q cs) → Settled w₀ plan (q :: s) := by
    intro q hq hcode hplan
    exact (settled_stringPlan hq hcode s h₀.of_cons).cons .keep fun w _ => hplan (s ++ w)
  have hhead : ∀ {d : Char} {w : List Char}, joins d = true → Tail w₀ w → s.head? ≠ some d →
      (s ++ w).head? ≠ some d := by
    intro d w hd hw hne
    cases s with
    | nil => exact (h₀.of_tail hw).head_ne hd
    | cons x s => exact hne
  by_cases hslash : e = '/'
  · subst hslash
    by_cases hline : s.head? = some '/'
    · obtain ⟨s, rfl⟩ := List.head?_eq_some_iff.mp hline
      exact .inl ((settled_lineCommentPlan h₀).append (v := []) [] rfl fun w _ => rfl)
    by_cases hblock : s.head? = some '*'
    · obtain ⟨s, rfl⟩ := List.head?_eq_some_iff.mp hblock
      exact .inl ((settled_blockCommentPlan h₀.of_cons.of_cons).append (v := ['/', '*'])
        [.blank, .blank] rfl fun w _ => rfl)
    · exact .inl (settled_of_eq [] (by simp) fun w hw =>
        plan_slash (hhead (by decide) hw hline) (hhead (by decide) hw hblock))
  by_cases hhash : e = '#'
  · subst hhash
    by_cases hattribute : s.head? = some '['
    · obtain ⟨s, rfl⟩ := List.head?_eq_some_iff.mp hattribute
      exact .inl ((settled_attributePlan 1 none s).append (v := ['#', '[']) [.blank, .blank] rfl
        fun w _ => rfl)
    · exact .inl ((settled_lineCommentPlan h₀.of_cons).cons .blank fun w hw =>
        plan_hash (hhead (by decide) hw hattribute))
  by_cases hangle : e = '<'
  · subst hangle
    by_cases hheredoc : ['<', '<'] <+: s
    · obtain ⟨cs, rfl⟩ := hheredoc
      rcases heredocPlan_cases h₀.of_cons.of_append (hlabel cs rfl) with h | ⟨label, h⟩
      · exact .inl (h.append (v := ['<', '<', '<']) [.keep, .keep, .keep] rfl fun w _ => rfl)
      · refine .inr ⟨label, fun w hw => ?_⟩
        have hlen : ('<' :: (['<', '<'] ++ cs)).length + (headerRest label w).1 =
            cs.length + (headerRest label w).1 + 3 := by
          simp only [List.length_cons, List.length_append, List.length_nil]
          omega
        rw [hlen]
        exact congrArg (fun inks => .keep :: .keep :: .keep :: inks) (h w hw)
    · refine .inl (settled_of_eq [] (by simp) fun w hw => plan_angle fun hp => ?_)
      have hne := (h₀.of_tail hw).head_ne (d := '<') (by decide)
      match s with
      | [] =>
        obtain ⟨z, rfl⟩ := hp
        exact hne rfl
      | [x] =>
        obtain ⟨rfl, z, rfl⟩ := List.cons_prefix_cons.mp hp
        exact hne rfl
      | x :: y :: s =>
        obtain ⟨hx, hrest⟩ := List.cons_prefix_cons.mp hp
        obtain ⟨hy, -⟩ := List.cons_prefix_cons.mp hrest
        exact hheredoc ⟨s, by simp [← hx, ← hy]⟩
  by_cases hsingle : e = '\''
  · subst hsingle
    exact .inl (hquoted (by decide) (by decide) fun cs => rfl)
  by_cases hdouble : e = '"'
  · subst hdouble
    exact .inl (hquoted (by decide) (by decide) fun cs => rfl)
  by_cases hback : e = '\x60'
  · subst hback
    exact .inl (hquoted (by decide) (by decide) fun cs => rfl)
  · exact .inl (settled_of_eq [] (by simp) fun w _ => plan_of_not_beginsToken
      (by simp [beginsToken, hslash, hhash, hangle, hsingle, hdouble, hback]) (s ++ w))

end SignatureInference.Source
