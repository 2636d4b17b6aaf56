import SignatureInference.Proofs.Source.Headers

/-! # Occurrences of headers, part by part

The occurrences in a text that is cut behind a comma or a parenthesis are those in front of the cut
and those behind it. A stretch of text in which no header begins adds none of its own.
-/
namespace SignatureInference.Source

open Text

def Occurrence.move (k : Nat) (o : Occurrence) : Occurrence := ⟨o.start + k, o.stop + k, o.name⟩

/-- The character in front of what follows `u`, where `previous` is in front of `u`. -/
def lastOf (previous : Option Char) (u : List Char) : Option Char := u.getLast?.or previous

@[simp] theorem lastOf_nil (previous : Option Char) : lastOf previous [] = previous := rfl

@[simp] theorem lastOf_cons (previous : Option Char) (c : Char) (u : List Char) :
    lastOf previous (c :: u) = lastOf (some c) u := by
  unfold lastOf
  cases u with
  | nil => rfl
  | cons d u => simp [List.getLast?_cons]

/-- No header begins inside `t`, which stands between `previous` and `z`. -/
def Silent (pattern : Option Char → List Char → Option Found) (previous : Option Char)
    (t z : List Char) : Prop :=
  ∀ u v, t = u ++ v → v ≠ [] → pattern (lastOf previous u) (v ++ z) = none

section

variable {pattern : Option Char → List Char → Option Found} {previous : Option Char}

theorem Silent.head {c : Char} {t z : List Char} (h : Silent pattern previous (c :: t) z) :
    pattern previous (c :: (t ++ z)) = none :=
  h [] (c :: t) rfl (by simp)

theorem Silent.tail {c : Char} {t z : List Char} (h : Silent pattern previous (c :: t) z) :
    Silent pattern (some c) t z := by
  intro u v ht hv
  have := h (c :: u) v (by rw [ht, List.cons_append]) hv
  rwa [lastOf_cons] at this

theorem silent_nil (z : List Char) : Silent pattern previous [] z := by
  intro u v ht hv
  exact absurd (List.append_eq_nil_iff.mp ht.symm).2 hv

theorem silent_cons {c : Char} {t z : List Char} (hc : pattern previous (c :: (t ++ z)) = none)
    (ht : Silent pattern (some c) t z) : Silent pattern previous (c :: t) z := by
  intro u v he hv
  cases u with
  | nil =>
    rw [List.nil_append] at he
    subst he
    exact hc
  | cons d u =>
    obtain ⟨rfl, he'⟩ := List.cons.inj he
    rw [lastOf_cons]
    exact ht u v he' hv

/-- Silence can be decided, character by character. -/
instance decidableSilent (pattern : Option Char → List Char → Option Found) :
    (previous : Option Char) → (t z : List Char) → Decidable (Silent pattern previous t z)
  | _, [], z => .isTrue (silent_nil z)
  | previous, c :: t, z =>
    have := decidableSilent pattern (some c) t z
    decidable_of_iff (pattern previous (c :: (t ++ z)) = none ∧ Silent pattern (some c) t z)
      ⟨fun h => silent_cons h.1 h.2, fun h => ⟨h.head, h.tail⟩⟩

theorem Silent.append {t u z : List Char} (ht : Silent pattern previous t (u ++ z))
    (hu : Silent pattern (lastOf previous t) u z) : Silent pattern previous (t ++ u) z := by
  induction t generalizing previous with
  | nil => exact hu
  | cons c t ih =>
    rw [lastOf_cons] at hu
    refine silent_cons ?_ (ih ht.tail hu)
    simpa using ht.head

theorem Silent.left {t u z : List Char} (h : Silent pattern previous (t ++ u) z) :
    Silent pattern previous t (u ++ z) := by
  intro x y hxy hne
  have := h x (y ++ u) (by rw [hxy, List.append_assoc]) (by simp [hne])
  rwa [List.append_assoc] at this

theorem Silent.function_take {t u z : List Char} (h : Silent functionHeader? none t (u ++ z)) :
    Silent functionHeader? previous t u := by
  intro x y hxy hne
  have hnone := h x y hxy hne
  rw [← List.append_assoc] at hnone
  cases x with
  | nil => exact functionHeader?_previous (functionHeader?_take hnone)
  | cons c x => simpa using functionHeader?_take hnone

theorem silent_wordChars (hpattern : IsHeader pattern) {d : Char} (hd : isWordChar d = true)
    {t z : List Char} (ht : ∀ c ∈ t, isWordChar c = true) : Silent pattern (some d) t z := by
  induction t generalizing d with
  | nil => exact silent_nil z
  | cons c t ih =>
    exact silent_cons (hpattern.eq_none_of_wordChar hd _ _)
      (ih (ht c List.mem_cons_self) fun x hx => ht x (List.mem_cons_of_mem _ hx))

theorem silent_word (hpattern : IsHeader pattern) {k t z : List Char}
    (hk : ∀ c ∈ k, isWordChar c = true) (hnone : pattern previous (k ++ (t ++ z)) = none)
    (ht : Silent pattern (lastOf previous k) t z) :
    Silent pattern previous (k ++ t) z := by
  cases k with
  | nil => exact ht
  | cons c k =>
    have hword : Silent pattern (some c) k (t ++ z) :=
      silent_wordChars hpattern (hk c List.mem_cons_self) fun d hd =>
        hk d (List.mem_cons_of_mem _ hd)
    rw [lastOf_cons] at ht
    rw [List.cons_append] at hnone ⊢
    apply silent_cons
    · rwa [List.append_assoc]
    · exact hword.append ht

theorem silent_of_not_begins (hpattern : IsHeader pattern) {t z : List Char}
    (ht : ∀ c ∈ t, beginsKeyword c = false) : Silent pattern previous t z := by
  induction t generalizing previous with
  | nil => exact silent_nil z
  | cons c t ih =>
    apply silent_cons
    · exact hpattern.eq_none previous (ht c List.mem_cons_self) _
    · exact ih fun x hx => ht x (List.mem_cons_of_mem _ hx)

theorem occurrencesFrom_none {c : Char} {cs : List Char} (h : pattern previous (c :: cs) = none)
    (pos : Nat) :
    occurrencesFrom pattern previous pos 0 (c :: cs) =
      occurrencesFrom pattern (some c) (pos + c.utf8Size) 0 cs := by
  rw [occurrencesFrom, h]

theorem occurrencesFrom_some {c : Char} {cs : List Char} {f : Found}
    (h : pattern previous (c :: cs) = some f) (pos : Nat) :
    occurrencesFrom pattern previous pos 0 (c :: cs) =
      ⟨pos, pos + (byteLength (c :: cs) - byteLength f.rest), f.name⟩ ::
        occurrencesFrom pattern (some c) (pos + c.utf8Size) (cs.length - f.rest.length) cs := by
  rw [occurrencesFrom, h]

variable (pattern)

theorem occurrencesFrom_add (pos skip k : Nat) (cs : List Char) :
    occurrencesFrom pattern previous (pos + k) skip cs =
      (occurrencesFrom pattern previous pos skip cs).map (Occurrence.move k) := by
  induction cs generalizing previous pos skip with
  | nil => rfl
  | cons c cs ih =>
    have hpos := Nat.add_right_comm pos k c.utf8Size
    cases skip with
    | succ skip =>
      rw [occurrencesFrom, occurrencesFrom, hpos, ih]
    | zero =>
      cases hf : pattern previous (c :: cs) with
      | none => rw [occurrencesFrom_none hf, occurrencesFrom_none hf, hpos, ih]
      | some f =>
        rw [occurrencesFrom_some hf, occurrencesFrom_some hf, hpos, ih, List.map_cons,
          Nat.add_right_comm]
        rfl

theorem occurrencesFrom_silent {t z : List Char} (h : Silent pattern previous t z) (pos : Nat) :
    occurrencesFrom pattern previous pos 0 (t ++ z) =
      occurrencesFrom pattern (lastOf previous t) (pos + byteLength t) 0 z := by
  induction t generalizing previous pos with
  | nil => rfl
  | cons c t ih =>
    rw [List.cons_append, occurrencesFrom_none h.head, ih h.tail, lastOf_cons, byteLength_cons,
      Nat.add_assoc]

theorem occurrencesFrom_skip (w z : List Char) (pos : Nat) :
    occurrencesFrom pattern previous pos w.length (w ++ z) =
      occurrencesFrom pattern (lastOf previous w) (pos + byteLength w) 0 z := by
  induction w generalizing previous pos with
  | nil => rfl
  | cons c w ih =>
    rw [List.cons_append, List.length_cons, occurrencesFrom, ih, lastOf_cons, byteLength_cons,
      Nat.add_assoc]

theorem occurrencesFrom_match {w z name : List Char} (hw : w ≠ [])
    (h : pattern previous (w ++ z) = some ⟨name, z⟩) (pos : Nat) :
    occurrencesFrom pattern previous pos 0 (w ++ z) =
      ⟨pos, pos + byteLength w, name⟩ ::
        occurrencesFrom pattern (lastOf previous w) (pos + byteLength w) 0 z := by
  cases w with
  | nil => exact absurd rfl hw
  | cons c w =>
    rw [List.cons_append] at h ⊢
    rw [occurrencesFrom_some h, List.length_append, Nat.add_sub_cancel, occurrencesFrom_skip,
      lastOf_cons]
    simp only [byteLength_cons, byteLength_append, ← Nat.add_assoc, Nat.add_sub_cancel]

theorem firstOccurrence?_eq_head? (pos : Nat) (cs : List Char) :
    firstOccurrence? pattern previous pos cs =
      (occurrencesFrom pattern previous pos 0 cs).head? := by
  induction cs generalizing previous pos with
  | nil => rfl
  | cons c cs ih =>
    rw [firstOccurrence?]
    cases hf : pattern previous (c :: cs) with
    | none => rw [occurrencesFrom_none hf, ← ih]
    | some f => rw [occurrencesFrom_some hf, List.head?_cons]

variable {pattern}

theorem IsHeader.start_mem (h : IsHeader pattern) {pos skip : Nat} {cs : List Char} {o : Occurrence}
    (ho : o ∈ occurrencesFrom pattern previous pos skip cs) :
    ∃ u v f, cs = u ++ v ∧ o.start = pos + byteLength u ∧ pattern (lastOf previous u) v = some f ∧
      o.stop + byteLength f.rest = pos + byteLength cs ∧ o.name = f.name := by
  induction cs generalizing previous pos skip with
  | nil => cases ho
  | cons c cs ih =>
    have later : ∀ {skip}, o ∈ occurrencesFrom pattern (some c) (pos + c.utf8Size) skip cs →
        ∃ u v f, c :: cs = u ++ v ∧ o.start = pos + byteLength u ∧
          pattern (lastOf previous u) v = some f ∧
          o.stop + byteLength f.rest = pos + byteLength (c :: cs) ∧ o.name = f.name := by
      intro skip ho
      obtain ⟨u, v, f, rfl, hstart, hf, hstop, hname⟩ := ih ho
      refine ⟨c :: u, v, f, rfl, ?_, by rwa [lastOf_cons], ?_, hname⟩
      · rw [hstart, byteLength_cons, Nat.add_assoc]
      · rw [hstop, byteLength_cons, Nat.add_assoc]
    cases skip with
    | succ skip => exact later ho
    | zero =>
      cases hf : pattern previous (c :: cs) with
      | none => exact later (occurrencesFrom_none hf pos ▸ ho)
      | some f =>
        rw [occurrencesFrom_some hf] at ho
        rcases List.mem_cons.mp ho with rfl | ho
        · obtain ⟨w, hw⟩ := (h.suffix hf).1
          have := congrArg byteLength hw
          rw [byteLength_append] at this
          refine ⟨[], c :: cs, f, rfl, rfl, hf, ?_, rfl⟩
          simp only
          omega
        · exact later ho

theorem silent_of_firstOccurrence?_eq_none {pos : Nat} {cs : List Char}
    (h : firstOccurrence? pattern previous pos cs = none) : Silent pattern previous cs [] := by
  induction cs generalizing previous pos with
  | nil => exact silent_nil []
  | cons c cs ih =>
    rw [firstOccurrence?] at h
    cases hf : pattern previous (c :: cs) with
    | some f =>
      rw [hf] at h
      cases h
    | none =>
      rw [hf] at h
      exact silent_cons (by rwa [List.append_nil]) (ih h)

theorem IsHeader.silent_of_firstOccurrence? (h : IsHeader pattern) {pos : Nat} {cs : List Char}
    {o : Occurrence} (ho : firstOccurrence? pattern previous pos cs = some o) :
    ∃ u v f, cs = u ++ v ∧ Silent pattern previous u v ∧ pattern (lastOf previous u) v = some f ∧
      o.stop + byteLength f.rest = pos + byteLength cs ∧ o.name = f.name := by
  induction cs generalizing previous pos with
  | nil => cases ho
  | cons c cs ih =>
    rw [firstOccurrence?] at ho
    cases hf : pattern previous (c :: cs) with
    | some f =>
      rw [hf] at ho
      cases ho
      obtain ⟨w, hw⟩ := (h.suffix hf).1
      have hlen := congrArg byteLength hw
      rw [byteLength_append] at hlen
      refine ⟨[], c :: cs, f, rfl, silent_nil _, hf, ?_, rfl⟩
      simp only
      omega
    | none =>
      rw [hf] at ho
      obtain ⟨u, v, f, rfl, hsilent, hv, hstop, hname⟩ := ih ho
      refine ⟨c :: u, v, f, rfl, silent_cons hf hsilent, by rwa [lastOf_cons], ?_, hname⟩
      rw [hstop, byteLength_cons, Nat.add_assoc]

theorem hasAt_of_functionHeader {pos skip : Nat} {cs : List Char} {o : Occurrence}
    (ho : o ∈ occurrencesFrom functionHeader? previous pos skip cs) :
    ∃ n, o.stop = pos + n + 1 ∧ HasAt cs n '(' := by
  obtain ⟨u, v, f, rfl, -, hf, hstop, -⟩ := IsHeader.ofFunction.start_mem ho
  obtain ⟨w, rfl⟩ := functionHeader?_suffix hf
  have hone : '('.utf8Size = 1 := by decide
  refine ⟨byteLength (u ++ w), ?_, u ++ w, f.rest, by simp, rfl⟩
  simp only [byteLength_append, byteLength_cons, hone] at hstop ⊢
  omega

theorem IsHeader.bounds (h : IsHeader pattern) {pos skip : Nat} {cs : List Char} {o : Occurrence}
    (ho : o ∈ occurrencesFrom pattern previous pos skip cs) :
    pos ≤ o.start ∧ o.start < o.stop ∧ o.stop ≤ pos + byteLength cs := by
  obtain ⟨u, v, f, rfl, hstart, hf, hstop, -⟩ := h.start_mem ho
  obtain ⟨⟨w, rfl⟩, hlt⟩ := h.suffix hf
  have hw : 0 < byteLength w := by
    refine byteLength_pos ?_
    rintro rfl
    simp at hlt
  simp only [byteLength_append] at hstop ⊢
  omega

theorem IsHeader.occurrencesFrom_stop (h : IsHeader pattern) {s : Char} (hs : isStop s = true)
    (u z : List Char) (pos : Nat) {skip : Nat} (hskip : skip ≤ u.length + 1) :
    occurrencesFrom pattern previous pos skip (u ++ s :: z) =
      occurrencesFrom pattern previous pos skip (u ++ [s]) ++
        occurrencesFrom pattern (some s) (pos + byteLength (u ++ [s])) 0 z := by
  induction u generalizing previous pos skip with
  | nil =>
    have hnone : ∀ z, pattern previous (s :: z) = none := by
      intro z
      refine h.eq_none previous ?_ z
      rcases isStop_cases hs with rfl | rfl | rfl <;> decide
    cases skip with
    | zero => simp [occurrencesFrom, hnone]
    | succ skip =>
      obtain rfl : skip = 0 := by simpa using hskip
      simp [occurrencesFrom]
  | cons c u ih =>
    simp only [List.cons_append, byteLength_cons, ← Nat.add_assoc]
    cases skip with
    | succ skip =>
      rw [occurrencesFrom, occurrencesFrom]
      exact ih _ (by simpa using hskip)
    | zero =>
      have hloc := h.stop hs previous (c :: u) z
      simp only [List.cons_append] at hloc
      cases hf : pattern previous (c :: (u ++ [s])) with
      | none =>
        rw [hf] at hloc
        rw [occurrencesFrom_none hf, occurrencesFrom_none hloc]
        exact ih _ (by simp)
      | some f =>
        rw [hf] at hloc
        rw [occurrencesFrom_some hf, occurrencesFrom_some hloc]
        obtain ⟨⟨w, hw⟩, hlt⟩ := h.suffix hf
        have hbytes := congrArg byteLength hw
        simp only [byteLength_append, byteLength_cons, byteLength_nil] at hbytes
        have hlen : (u ++ s :: z).length - (f.before z).rest.length =
            (u ++ [s]).length - f.rest.length := by
          simp only [Found.before, List.length_append, List.length_cons, List.length_nil]
          omega
        rw [hlen, ih _ (by simp), List.cons_append]
        congr 2
        simp only [Found.before, byteLength_append, byteLength_cons, byteLength_nil]
        omega

theorem IsHeader.occurrencesFrom_previous (h : IsHeader pattern) (previous previous' : Option Char)
    (pos : Nat) {c : Char} (hc : beginsKeyword c = false) (cs : List Char) :
    occurrencesFrom pattern previous pos 0 (c :: cs) =
      occurrencesFrom pattern previous' pos 0 (c :: cs) := by
  rw [occurrencesFrom_none (h.eq_none previous hc cs),
    occurrencesFrom_none (h.eq_none previous' hc cs)]

end

end SignatureInference.Source
