import SignatureInference.Text.Basic

/-! # Pieces of a text

A text that is split at a separator can be split on either side of each separator apart, and every
other character of it is in one of the pieces. Cut at a single separator, it falls into what is
before and what is after it.
-/
namespace SignatureInference.Text

theorem splitWhere_ne_nil (p : Char → Bool) (cs : List Char) : splitWhere p cs ≠ [] := by
  cases cs with
  | nil => simp [splitWhere]
  | cons c cs =>
    rw [splitWhere]
    split
    · simp
    · split <;> simp

theorem splitWhere_append {p : Char → Bool} {s : Char} (hs : p s = true) (u z : List Char) :
    splitWhere p (u ++ s :: z) = splitWhere p u ++ splitWhere p z := by
  induction u with
  | nil => simp [splitWhere, hs]
  | cons c u ih =>
    rw [List.cons_append, splitWhere, splitWhere, ih]
    split
    · rfl
    · cases hsplit : splitWhere p u with
      | nil => exact absurd hsplit (splitWhere_ne_nil p u)
      | cons piece pieces => rfl

theorem splitWhere_of_not_mem {p : Char → Bool} {cs : List Char} (h : ∀ c ∈ cs, p c = false) :
    splitWhere p cs = [cs] := by
  induction cs with
  | nil => rfl
  | cons c cs ih =>
    rw [splitWhere, h c List.mem_cons_self, ih fun d hd => h d (List.mem_cons_of_mem _ hd)]
    rfl

theorem splitWhere_intercalate {s : Char} {pieces : List (List Char)} (hne : pieces ≠ [])
    (h : ∀ piece ∈ pieces, s ∉ piece) : splitWhere (· == s) ([s].intercalate pieces) = pieces := by
  have hpiece : ∀ piece ∈ pieces, splitWhere (· == s) piece = [piece] := by
    intro piece hmem
    apply splitWhere_of_not_mem
    intro c hc
    rw [beq_eq_false_iff_ne]
    rintro rfl
    exact h piece hmem hc
  induction pieces with
  | nil => exact absurd rfl hne
  | cons piece pieces ih =>
    have hfirst := hpiece piece List.mem_cons_self
    cases pieces with
    | nil => rw [List.intercalate_singleton, hfirst]
    | cons next pieces =>
      rw [List.intercalate_cons_cons, List.append_assoc, List.singleton_append,
        splitWhere_append (by simp), hfirst,
        ih (by simp) (fun x hx => h x (List.mem_cons_of_mem _ hx)) fun x hx =>
          hpiece x (List.mem_cons_of_mem _ hx)]
      rfl

theorem intercalate_splitWhere (s : Char) (cs : List Char) :
    [s].intercalate (splitWhere (· == s) cs) = cs := by
  induction cs with
  | nil => rfl
  | cons c cs ih =>
    rw [splitWhere]
    obtain ⟨piece, pieces, hsplit⟩ := List.exists_cons_of_ne_nil (splitWhere_ne_nil (· == s) cs)
    rw [hsplit] at ih ⊢
    by_cases hc : c = s
    · subst hc
      rw [if_pos (beq_self_eq_true c), List.intercalate_cons_cons, ih]
      rfl
    · rw [if_neg (by simpa using hc)]
      cases pieces with
      | nil => simpa using ih
      | cons next pieces =>
        simp only [List.intercalate_cons_cons] at ih ⊢
        rw [← ih]
        simp

theorem intercalate_append {s : Char} {front back : List (List Char)} (hfront : front ≠ [])
    (hback : back ≠ []) :
    [s].intercalate (front ++ back) = [s].intercalate front ++ s :: [s].intercalate back := by
  induction front with
  | nil => exact absurd rfl hfront
  | cons piece front ih =>
    by_cases hnil : front = []
    · subst hnil
      rw [List.singleton_append, List.intercalate_cons_of_ne_nil hback, List.intercalate_singleton,
        List.append_assoc, List.singleton_append]
    · rw [List.cons_append, List.intercalate_cons_of_ne_nil (by simp [hnil]), ih hnil,
        List.intercalate_cons_of_ne_nil hnil]
      simp only [List.append_assoc]

theorem mem_splitWhere {p : Char → Bool} {cs : List Char} {c : Char} (hc : c ∈ cs) :
    p c = true ∨ ∃ piece ∈ splitWhere p cs, c ∈ piece := by
  induction cs with
  | nil => cases hc
  | cons d cs ih =>
    rw [splitWhere]
    by_cases hd : p d = true
    · rw [if_pos hd]
      rcases List.mem_cons.mp hc with rfl | hc
      · exact .inl hd
      · exact (ih hc).imp_right fun ⟨piece, hpiece, hmem⟩ =>
          ⟨piece, List.mem_cons_of_mem _ hpiece, hmem⟩
    · rw [if_neg hd]
      cases hsplit : splitWhere p cs with
      | nil =>
        rcases List.mem_cons.mp hc with rfl | hc
        · exact .inr ⟨[c], by simp, by simp⟩
        · rcases ih hc with h | ⟨piece, hpiece, -⟩
          · exact .inl h
          · rw [hsplit] at hpiece
            cases hpiece
      | cons first pieces =>
        rcases List.mem_cons.mp hc with rfl | hc
        · exact .inr ⟨c :: first, by simp, by simp⟩
        · rcases ih hc with h | ⟨piece, hpiece, hmem⟩
          · exact .inl h
          · rw [hsplit] at hpiece
            rcases List.mem_cons.mp hpiece with rfl | hpiece
            · exact .inr ⟨d :: piece, by simp, List.mem_cons_of_mem _ hmem⟩
            · exact .inr ⟨piece, List.mem_cons_of_mem _ hpiece, hmem⟩

variable {s : Char} {cs u v : List Char}

theorem breakOn?_cons (c : Char) :
    breakOn? [s] (c :: cs) =
      if s = c then some ([], cs) else (breakOn? [s] cs).map fun p => (c :: p.1, p.2) := by
  rw [breakOn?, dropHead?]
  by_cases heq : s = c
  · simp [heq, dropHead?]
  · simp [heq]

theorem breakOn?_eq_none : breakOn? [s] cs = none ↔ s ∉ cs := by
  induction cs with
  | nil => simp [breakOn?]
  | cons c cs ih =>
    rw [breakOn?_cons]
    split
    · next heq => simp [heq]
    · next hne => simp [hne, ih]

theorem breakOn?_append (hu : s ∉ u) : breakOn? [s] (u ++ s :: v) = some (u, v) := by
  induction u with
  | nil => simp [breakOn?_cons]
  | cons c u ih =>
    rw [List.mem_cons, not_or] at hu
    rw [List.cons_append, breakOn?_cons, if_neg hu.1, ih hu.2, Option.map_some]

theorem breakOn?_eq_some : breakOn? [s] cs = some (u, v) ↔ cs = u ++ s :: v ∧ s ∉ u := by
  constructor
  · intro h
    induction cs generalizing u with
    | nil => cases h
    | cons c cs ih =>
      rw [breakOn?_cons] at h
      split at h
      · next heq =>
        cases h
        simp [heq]
      · next hne =>
        obtain ⟨⟨u', v'⟩, hbreak, hp⟩ := Option.map_eq_some_iff.mp h
        cases hp
        obtain ⟨rfl, hu⟩ := ih hbreak
        simp [hne, hu]
  · rintro ⟨rfl, hu⟩
    exact breakOn?_append hu

theorem breakOnLast?_eq_none : breakOnLast? [s] cs = none ↔ s ∉ cs := by
  rw [breakOnLast?, Option.map_eq_none_iff, List.reverse_singleton, breakOn?_eq_none,
    List.mem_reverse]

theorem breakOnLast?_eq_some : breakOnLast? [s] cs = some (u, v) ↔ cs = u ++ s :: v ∧ s ∉ v := by
  rw [breakOnLast?, Option.map_eq_some_iff, List.reverse_singleton]
  constructor
  · rintro ⟨⟨first, last⟩, hbreak, heq⟩
    obtain ⟨hcs, hfirst⟩ := breakOn?_eq_some.mp hbreak
    obtain ⟨rfl, rfl⟩ := Prod.mk.inj heq
    constructor
    · rw [← List.reverse_reverse cs, hcs]
      simp
    · simpa using hfirst
  · rintro ⟨rfl, hv⟩
    refine ⟨(v.reverse, u.reverse), breakOn?_eq_some.mpr ?_, by simp⟩
    simp [hv]

end SignatureInference.Text
