import SignatureInference.Proofs.Source.Insertion
import SignatureInference.Proofs.Source.Tokens

/-! # Masking a source with an insertion

A type that is put beside a character of code is code too, and masking passes it over. What masking
does with the rest of the source does not change.
-/
namespace SignatureInference.Source

open Text

/-! ## Masking step by step -/

theorem byteLength_replicate_blank (n : Nat) : byteLength (List.replicate n ' ') = n := by
  induction n with
  | zero => rfl
  | succ n ih =>
    have : ' '.utf8Size = 1 := by decide
    rw [List.replicate_succ, byteLength_cons, ih, this, Nat.add_comm]

theorem byteLength_ink {ink : Ink} {c : Char} {shown : List Char} (h : ink.apply c = some shown) :
    byteLength shown = c.utf8Size := by
  cases ink with
  | keep => cases h; simp
  | blank =>
    cases h
    split
    · simp
    · exact byteLength_replicate_blank _
  | lastByte =>
    rw [Ink.apply] at h
    split at h
    · cases h; simp
    · cases h

theorem mem_ink {ink : Ink} {c x : Char} {shown : List Char} (h : ink.apply c = some shown)
    (hx : x ∈ shown) (hblank : x ≠ ' ') : x = c := by
  cases ink with
  | keep => cases h; simpa using hx
  | blank =>
    cases h
    split at hx
    · simpa using hx
    · exact absurd (List.eq_of_mem_replicate hx) hblank
  | lastByte =>
    rw [Ink.apply] at h
    split at h
    · cases h; simpa using hx
    · cases h

theorem maskFrom?_cons (pending : List Ink) (c : Char) (cs : List Char) :
    maskFrom? pending (c :: cs) =
      ((nextInk pending (c :: cs)).1.apply c).bind fun shown =>
        (maskFrom? (nextInk pending (c :: cs)).2 cs).map (shown ++ ·) := by
  rw [maskFrom?]
  cases (nextInk pending (c :: cs)).1.apply c with
  | none => rfl
  | some shown => cases maskFrom? (nextInk pending (c :: cs)).2 cs <;> rfl

theorem exists_of_maskFrom?_cons {pending : List Ink} {c : Char} {u cs a b : List Char}
    (h : maskFrom? pending (c :: cs) = some (a ++ b)) (hlen : byteLength a = byteLength (c :: u)) :
    ∃ shown a', a = shown ++ a' ∧ (nextInk pending (c :: cs)).1.apply c = some shown ∧
      maskFrom? (nextInk pending (c :: cs)).2 cs = some (a' ++ b) ∧
      byteLength a' = byteLength u := by
  rw [maskFrom?_cons] at h
  obtain ⟨shown, hshown, h⟩ := Option.bind_eq_some_iff.mp h
  obtain ⟨rest, hrest, he⟩ := Option.map_eq_some_iff.mp h
  have hbytes := byteLength_ink hshown
  rw [byteLength_cons] at hlen
  obtain ⟨a', rfl, rfl⟩ := exists_append_of_byteLength_le he (by omega)
  refine ⟨shown, a', rfl, hshown, hrest, ?_⟩
  rw [byteLength_append] at hlen
  omega

theorem maskFrom?_plan {cs : List Char} (h : plan cs ≠ []) :
    maskFrom? [] cs = maskFrom? (plan cs) cs := by
  cases cs with
  | nil => rfl
  | cons c cs =>
    obtain ⟨ink, inks, he⟩ := List.exists_cons_of_ne_nil h
    have hink : nextInk [] (c :: cs) = nextInk (plan (c :: cs)) (c :: cs) := by
      simp [nextInk, he]
    rw [maskFrom?_cons, maskFrom?_cons, hink]

theorem mem_of_maskFrom? {pending : List Ink} {u w a b : List Char}
    (h : maskFrom? pending (u ++ w) = some (a ++ b)) (hlen : byteLength a = byteLength u) {x : Char}
    (hx : x ∈ a) (hblank : x ≠ ' ') : x ∈ u := by
  induction u generalizing pending a with
  | nil =>
    rw [eq_nil_of_byteLength_eq_zero hlen] at hx
    cases hx
  | cons c u ih =>
    obtain ⟨shown, a, rfl, hshown, hrest, hlen⟩ := exists_of_maskFrom?_cons h hlen
    rcases List.mem_append.mp hx with hx | hx
    · exact mem_ink hshown hx hblank ▸ List.mem_cons_self
    · exact List.mem_cons_of_mem _ (ih hrest hlen hx)

/-- A character that a masked source shows stands at the same place in the source, and what it shows
in front of it is a blank or stands there too. -/
theorem exists_of_maskFrom? {pending : List Ink} {cs a b : List Char} {c : Char} (hc : c ≠ ' ')
    (h : maskFrom? pending cs = some (a ++ c :: b)) :
    ∃ u w inks, cs = u ++ c :: w ∧ byteLength u = byteLength a ∧ maskFrom? inks w = some b ∧
      ∀ x ∈ a.getLast?, x = ' ' ∨ x ∈ u.getLast? := by
  induction cs generalizing pending a with
  | nil => simp [maskFrom?] at h
  | cons d cs ih =>
    rw [maskFrom?_cons] at h
    obtain ⟨shown, hshown, h⟩ := Option.bind_eq_some_iff.mp h
    obtain ⟨rest, hrest, he⟩ := Option.map_eq_some_iff.mp h
    have hbytes := byteLength_ink hshown
    by_cases hle : byteLength shown ≤ byteLength a
    · obtain ⟨a, rfl, rfl⟩ := exists_append_of_byteLength_le he hle
      obtain ⟨u, w, inks, rfl, hlen, hw, hlast⟩ := ih hrest
      refine ⟨d :: u, w, inks, rfl,
        by rw [byteLength_cons, byteLength_append, hlen, hbytes], hw, ?_⟩
      intro x hx
      rw [List.getLast?_append] at hx
      rw [List.getLast?_cons]
      cases ha : a.getLast? with
      | none =>
        obtain rfl := List.getLast?_eq_none_iff.mp ha
        obtain rfl := eq_nil_of_byteLength_eq_zero hlen
        by_cases hblank : x = ' '
        · exact .inl hblank
        · rw [mem_ink hshown (List.mem_of_getLast? (by simpa using hx)) hblank]
          exact .inr rfl
      | some y =>
        rw [ha] at hx
        obtain rfl : y = x := by simpa using hx
        refine (hlast y ha).imp_right fun hy => ?_
        rw [Option.mem_def] at hy
        simp [hy]
    · -- the character is what the first one became
      obtain ⟨v, rfl, hv⟩ := exists_append_of_byteLength_le he.symm (by omega)
      cases v with
      | nil => simp at hle
      | cons x v =>
        obtain ⟨rfl, rfl⟩ := List.cons.inj hv
        obtain rfl := mem_ink hshown (by simp) hc
        simp only [byteLength_append, byteLength_cons] at hbytes
        obtain rfl := eq_nil_of_byteLength_eq_zero (show byteLength a = 0 by omega)
        obtain rfl := eq_nil_of_byteLength_eq_zero (show byteLength v = 0 by omega)
        exact ⟨[], cs, _, rfl, rfl, hrest, by simp⟩

theorem exists_append_of_maskFrom? {pending : List Ink} {cs a v z : List Char} (hne : v ≠ [])
    (hv : ∀ c ∈ v, c ≠ ' ') (h : maskFrom? pending cs = some (a ++ (v ++ z))) :
    ∃ u w inks, cs = u ++ (v ++ w) ∧ byteLength u = byteLength a ∧ maskFrom? inks w = some z := by
  induction v generalizing pending cs a with
  | nil => exact absurd rfl hne
  | cons c v ih =>
    obtain ⟨u, w, inks, rfl, hlen, hw, -⟩ := exists_of_maskFrom? (hv c List.mem_cons_self) h
    cases v with
    | nil => exact ⟨u, w, inks, rfl, hlen, hw⟩
    | cons d v =>
      obtain ⟨u', w', inks', rfl, hlen', hw'⟩ :=
        @ih inks w [] (by simp) (fun x hx => hv x (List.mem_cons_of_mem _ hx)) hw
      obtain rfl := eq_nil_of_byteLength_eq_zero hlen'
      exact ⟨u, w', inks', rfl, hlen, hw'⟩

/-- A text without blanks that the masked source shows stands at the same place in the source. -/
theorem exists_append_of_mask {source a v z : List Char} (hne : v ≠ []) (hv : ∀ c ∈ v, c ≠ ' ')
    (h : mask source = a ++ (v ++ z)) :
    ∃ u w, source = u ++ (v ++ w) ∧ byteLength u = byteLength a := by
  rw [mask] at h
  cases hmask : mask? source with
  | none =>
    -- a source that cannot be masked is searched as it is
    rw [hmask] at h
    exact ⟨a, z, h, rfl⟩
  | some masked =>
    rw [hmask] at h
    obtain rfl : masked = a ++ (v ++ z) := h
    obtain ⟨u, w, -, hsource, hlen, -⟩ := exists_append_of_maskFrom? hne hv hmask
    exact ⟨u, w, hsource, hlen⟩

theorem hasAt_of_mask {source : List Char} {n : Nat} {c : Char} (hc : c ≠ ' ')
    (h : HasAt (mask source) n c) : HasAt source n c := by
  obtain ⟨a, z, hmask, rfl⟩ := h
  have hne : [c] ≠ [] := by simp
  obtain ⟨u, w, rfl, hlen⟩ := exists_append_of_mask hne (by simpa using hc) hmask
  exact ⟨u, w, rfl, hlen⟩

theorem not_code_of_blank {pending : List Ink} {u r a b : List Char} {c : Char}
    (hc : isCode c = true) (h : maskFrom? pending (u ++ c :: r) = some (a ++ c :: b))
    (hlen : byteLength a = byteLength u) : pending[u.length]? ≠ some .blank := by
  intro hink
  induction u generalizing pending a with
  | nil =>
    have hne : c ≠ '\n' ∧ c ≠ ' ' ∧ c.utf8Size = 1 := by
      rcases isCode_cases hc with rfl | rfl | rfl | rfl <;> decide
    cases pending with
    | nil => cases hink
    | cons ink inks =>
      cases hink
      rw [eq_nil_of_byteLength_eq_zero hlen, List.nil_append, List.nil_append, maskFrom?_cons] at h
      simp only [nextInk, Ink.apply, if_neg hne.1, hne.2.2, Option.bind_some] at h
      obtain ⟨rest, -, he⟩ := Option.map_eq_some_iff.mp h
      exact hne.2.1 (List.cons.inj he).1.symm
  | cons e u ih =>
    cases pending with
    | nil => cases hink
    | cons ink inks =>
      obtain ⟨shown, a, -, -, hrest, hlen⟩ := exists_of_maskFrom?_cons h hlen
      exact ih hrest hlen (by simpa [nextInk] using hink)

/-! ## Text beside code -/

theorem maskFrom?_keep (n : Nat) (inks : List Ink) (t z : List Char) :
    maskFrom? (List.replicate (n + t.length) .keep ++ inks) (t ++ z) =
      (maskFrom? (List.replicate n .keep ++ inks) z).map (t ++ ·) := by
  induction t with
  | nil => simp
  | cons d t ih =>
    rw [List.length_cons, ← Nat.add_assoc, List.replicate_succ, List.cons_append, List.cons_append,
      maskFrom?_cons]
    simp only [nextInk, Ink.apply, Option.bind_some, ih, Option.map_map]
    rfl

theorem maskFrom?_code {t : List Char} (ht : ∀ d ∈ t, beginsToken d = false) (z : List Char) :
    maskFrom? [] (t ++ z) = (maskFrom? [] z).map (t ++ ·) := by
  induction t with
  | nil => simp
  | cons d t ih =>
    rw [List.cons_append, maskFrom?_cons]
    simp only [nextInk, plan_of_not_beginsToken (ht d List.mem_cons_self), Ink.apply,
      Option.bind_some, ih fun x hx => ht x (List.mem_cons_of_mem _ hx), Option.map_map]
    rfl

/-- A text with an insertion in front of its first character or right behind it. -/
def beside (behind : Bool) (t : List Char) (c : Char) (z : List Char) : List Char :=
  if behind then c :: (t ++ z) else t ++ c :: z

theorem beginsToken_of_isTypeChar {d : Char} (h : isTypeChar d = true) : beginsToken d = false := by
  by_contra hd
  simp only [beginsToken, Bool.not_eq_false, Bool.or_eq_true, beq_iff_eq] at hd
  rcases hd with ((((rfl | rfl) | rfl) | rfl) | rfl) | rfl <;> revert h <;> decide

theorem joins_of_isTypeChar {d : Char} (h : isTypeChar d = true) : joins d = false := by
  by_contra hd
  simp only [joins, Bool.not_eq_false, Bool.or_eq_true, beq_iff_eq] at hd
  rcases hd with (((rfl | rfl) | rfl) | rfl) | rfl <;> revert h <;> decide

section

variable {behind : Bool} {t r b : List Char} {c : Char}

theorem apart_beside (hc : isCode c = true) (ht : Inert t) {s : List Char}
    (hs : behind = false → ∀ e ∈ s.getLast?, isIdentPart e = false) :
    Apart s (beside behind t c r) := by
  cases behind with
  | true => exact apart_code hc s (t ++ r)
  | false =>
    have hs := hs rfl
    cases t with
    | nil => exact apart_code hc s r
    | cons d t =>
      refine ⟨by simp [beside], ?_, ?_⟩
      · rintro x hx
        cases hx
        exact joins_of_isTypeChar (ht d List.mem_cons_self)
      · intro e he x _ hident
        rw [hs e he] at hident
        cases hident

theorem headerRest_beside (hc : isCode c = true) (ht : Inert t) (label : List Char) :
    headerRest label (beside behind t c r) =
      ((headerRest label (c :: r)).1 + t.length, (headerRest label (c :: r)).2) := by
  have hcode : '\n' ∉ [c] := by
    rcases isCode_cases hc with rfl | rfl | rfl | rfl <;> decide
  have hline : '\n' ∉ t := ht.not_mem (by decide)
  have hone := headerRest_append label hcode r
  have hrest := headerRest_append label hline
  cases behind with
  | true =>
    have := headerRest_append label hcode (t ++ r)
    rw [List.singleton_append] at this hone
    simp only [beside, if_true, this, hone, hrest]
    congr 1
    omega
  | false =>
    simp only [beside, Bool.false_eq_true, if_false, hrest]
    congr 1
    omega

theorem maskFrom?_beside_code (hc : isCode c = true) (ht : Inert t)
    (h : maskFrom? [] (c :: r) = some (c :: b)) :
    maskFrom? [] (beside behind t c r) = some (beside behind t c b) := by
  have hcode : beginsToken c = false := by
    rcases isCode_cases hc with rfl | rfl | rfl | rfl <;> decide
  have htokens : ∀ d ∈ t, beginsToken d = false := fun d hd => beginsToken_of_isTypeChar (ht d hd)
  cases behind with
  | false => rw [beside, if_neg (by simp), maskFrom?_code htokens, h]; rfl
  | true =>
    have hr : maskFrom? [] r = some b := by
      rw [← List.singleton_append, maskFrom?_code (by simpa using hcode)] at h
      obtain ⟨b', hb, he⟩ := Option.map_eq_some_iff.mp h
      have hb' : b' = b := (List.cons.inj he).2
      rw [hb, hb']
    have := maskFrom?_code (t := c :: t) (by simpa using ⟨hcode, htokens⟩) r
    rw [hr] at this
    exact this

theorem maskFrom?_beside_line {n : Nat} {inks : List Ink} (hn : 0 < n)
    (h : maskFrom? (List.replicate n .keep ++ inks) (c :: r) = some (c :: b)) :
    maskFrom? (List.replicate (n + t.length) .keep ++ inks) (beside behind t c r) =
      some (beside behind t c b) := by
  cases behind with
  | false => rw [beside, if_neg (by simp), maskFrom?_keep, h]; rfl
  | true =>
    obtain ⟨n, rfl⟩ := Nat.exists_eq_add_of_lt hn
    have hr : maskFrom? (List.replicate n .keep ++ inks) r = some b := by
      have hkeep := maskFrom?_keep n inks [c] r
      rw [List.length_singleton, List.singleton_append] at hkeep
      rw [Nat.zero_add, hkeep] at h
      obtain ⟨b', hb, he⟩ := Option.map_eq_some_iff.mp h
      have hb' : b' = b := (List.cons.inj he).2
      rw [hb, hb']
    have hkeep := maskFrom?_keep n inks (c :: t) r
    rw [hr, List.length_cons] at hkeep
    rw [Nat.zero_add, Nat.add_assoc, Nat.add_comm 1]
    exact hkeep

/-! ## The text in front of the insertion -/

/-- Two plans for a text, without and with an insertion behind it: they end in the text, or they
keep the line with the insertion. -/
inductive Related (extra : Nat) (s : List Char) : List Ink → List Ink → Prop
  | same {inks : List Ink} (h : inks.length ≤ s.length) : Related extra s inks inks
  | line {n : Nat} {inks : List Ink} (h : s.length < n) :
      Related extra s (List.replicate n .keep ++ inks) (List.replicate (n + extra) .keep ++ inks)

theorem related_plan (hc : isCode c = true) (ht : Inert t) (hr : r ≠ []) {s a : List Char}
    (hne : s ≠ []) (hs : behind = false → ∀ e ∈ s.getLast?, isIdentPart e = false)
    (hlabel : ∀ cs, s = '<' :: '<' :: '<' :: cs → KeepsLabel (beside behind t c r) cs)
    (h : maskFrom? [] (s ++ c :: r) = some (a ++ c :: b)) (hlen : byteLength a = byteLength s) :
    Related t.length s (plan (s ++ c :: r)) (plan (s ++ beside behind t c r)) := by
  have hcode : Tail (beside behind t c r) (c :: r) := .inr ⟨c, r, rfl, hc⟩
  rcases plan_cases hne (apart_beside hc ht hs) hlabel with (⟨l, hl, hw⟩ | hw) | ⟨label, hw⟩
  · rw [hw _ hcode, hw _ (.inl rfl)]
    exact .same hl
  · have hblank := hw c r hr hc
    have hplan : plan (s ++ c :: r) ≠ [] := by
      intro hnil
      rw [hnil] at hblank
      cases hblank
    rw [maskFrom?_plan hplan] at h
    exact absurd hblank (not_code_of_blank hc h hlen)
  · rw [hw _ hcode, hw _ (.inl rfl), headerRest_beside hc ht, ← Nat.add_assoc]
    refine .line ?_
    have hcode : '\n' ∉ [c] := by
      rcases isCode_cases hc with rfl | rfl | rfl | rfl <;> decide
    have hone := headerRest_append label hcode r
    rw [List.singleton_append] at hone
    rw [hone, List.length_singleton]
    omega

/-- Every angle bracket in front of the insertion has a stop behind it, so that it is no part of a
heredoc whose label the insertion touches. -/
def AnglesStop (a : List Char) : Prop := ∀ u v, a = u ++ '<' :: v → ∃ x ∈ v, isStop x = true

theorem AnglesStop.of_append {u a : List Char} (h : AnglesStop (u ++ a)) : AnglesStop a :=
  fun v w he => h (u ++ v) w (by rw [he, List.append_assoc])

theorem exists_stop_of_anglesStop {cs w a b : List Char} (hangles : AnglesStop a)
    (h : maskFrom? [] ('<' :: '<' :: '<' :: (cs ++ w)) = some (a ++ b))
    (hlen : byteLength a = byteLength ('<' :: '<' :: '<' :: cs)) : ∃ x ∈ cs, isStop x = true := by
  have hkeep := maskFrom?_keep 0 (heredocPlan (cs ++ w)) ['<', '<', '<'] (cs ++ w)
  rw [maskFrom?_plan (by simp [plan])] at h
  obtain ⟨m, hm, he⟩ := Option.map_eq_some_iff.mp (hkeep.symm.trans h)
  have hthree : byteLength ['<', '<', '<'] = 3 := by decide
  have hone : '<'.utf8Size = 1 := by decide
  simp only [byteLength_cons, hone] at hlen
  obtain ⟨a, rfl, rfl⟩ := exists_append_of_byteLength_le he (by omega)
  obtain ⟨x, hx, hstop⟩ := hangles ['<', '<'] a rfl
  refine ⟨x, mem_of_maskFrom? hm ?_ hx ?_, hstop⟩
  · rw [byteLength_append] at hlen
    omega
  · rintro rfl
    exact absurd hstop (by decide)

def firstInk : List Ink → Ink × List Ink
  | ink :: inks => (ink, inks)
  | [] => (.keep, [])

theorem nextInk_nil (cs : List Char) : nextInk [] cs = firstInk (plan cs) := rfl

theorem nextInk_of_ne_nil {pending : List Ink} (h : pending ≠ []) (cs : List Char) :
    nextInk pending cs = firstInk pending := by
  obtain ⟨ink, inks, rfl⟩ := List.exists_cons_of_ne_nil h
  rfl

theorem Related.firstInk {extra : Nat} {e : Char} {s : List Char} {inks inks' : List Ink}
    (h : Related extra (e :: s) inks inks') :
    (firstInk inks').1 = (firstInk inks).1 ∧
      Related extra s (firstInk inks).2 (firstInk inks').2 := by
  cases h with
  | same hle =>
    refine ⟨rfl, .same ?_⟩
    cases inks with
    | nil => simp [Source.firstInk]
    | cons ink inks => simpa [Source.firstInk] using hle
  | @line n inks hlt =>
    obtain ⟨n, rfl⟩ := Nat.exists_eq_add_of_lt (Nat.zero_lt_of_lt hlt)
    rw [Nat.zero_add, Nat.add_right_comm]
    exact ⟨rfl, .line (by simpa using hlt)⟩

theorem Related.eq_nil_iff {extra : Nat} {e : Char} {s : List Char} {inks inks' : List Ink}
    (h : Related extra (e :: s) inks inks') : inks = [] ↔ inks' = [] := by
  cases h with
  | same hle => rfl
  | line hlt =>
    simp only [List.append_eq_nil_iff, List.replicate_eq_nil_iff]
    constructor <;> (rintro ⟨h, -⟩; omega)

/-- Masking a text with a type beside a character of code. A type in front of the character must not
touch a name, or the label of a heredoc. -/
theorem maskFrom?_beside (behind : Bool) (hc : isCode c = true) (ht : Inert t) (hr : r ≠ [])
    {s a : List Char} {pending pending' : List Ink} (hp : Related t.length s pending pending')
    (hs : behind = false → ∀ e ∈ s.getLast?, isIdentPart e = false)
    (hangles : behind = false → AnglesStop a)
    (h : maskFrom? pending (s ++ c :: r) = some (a ++ c :: b))
    (hlen : byteLength a = byteLength s) :
    maskFrom? pending' (s ++ beside behind t c r) = some (a ++ beside behind t c b) := by
  induction s generalizing pending pending' a with
  | nil =>
    rw [eq_nil_of_byteLength_eq_zero hlen] at h ⊢
    cases hp with
    | same hle =>
      rw [List.eq_nil_of_length_eq_zero (Nat.le_zero.mp hle)] at h ⊢
      exact maskFrom?_beside_code hc ht h
    | line hlt => exact maskFrom?_beside_line hlt h
  | cons e s ih =>
    -- both plans have the same mark for the next character
    have hnext : (nextInk pending' (e :: (s ++ beside behind t c r))).1 =
          (nextInk pending (e :: (s ++ c :: r))).1 ∧
        Related t.length s (nextInk pending (e :: (s ++ c :: r))).2
          (nextInk pending' (e :: (s ++ beside behind t c r))).2 := by
      by_cases hpending : pending = []
      · have hpending' := hp.eq_nil_iff.mp hpending
        subst hpending hpending'
        rw [nextInk_nil, nextInk_nil]
        refine (related_plan hc ht hr (List.cons_ne_nil e s) hs (fun cs he => ?_) h hlen).firstInk
        cases behind with
        | true => exact .inr ⟨c, t ++ r, rfl, hc⟩
        | false =>
          rw [he] at h hlen
          exact .inl (exists_stop_of_anglesStop (hangles rfl) h hlen)
      · rw [nextInk_of_ne_nil hpending, nextInk_of_ne_nil fun h => hpending (hp.eq_nil_iff.mpr h)]
        exact hp.firstInk
    obtain ⟨hink, hrelated⟩ := hnext
    rw [List.cons_append] at h
    obtain ⟨shown, a, rfl, hshown, hrest, hlen⟩ := exists_of_maskFrom?_cons h hlen
    have hs' : behind = false → ∀ d ∈ s.getLast?, isIdentPart d = false := fun hb d hd =>
      hs hb d (by rw [List.getLast?_cons, Option.mem_def.mp hd]; rfl)
    rw [List.cons_append, maskFrom?_cons, hink, hshown, Option.bind_some,
      ih hrelated hs' (fun hb => (hangles hb).of_append) hrest hlen]
    simp

end

end SignatureInference.Source
