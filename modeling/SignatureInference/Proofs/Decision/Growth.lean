import SignatureInference.Proofs.Decision.Distinct
import SignatureInference.Proofs.Registry.Ancestors
import SignatureInference.Proofs.TypeValue

/-! # Growing evidence

More observations can only make a decided type nullable, turn it into a conflict or, where widening
is allowed, move it up to a class above. They never resolve a conflict.
-/
namespace SignatureInference

namespace Registry

variable {r : Registry}

/-- Every class that stands above another has a well-formed name. -/
def WellNamed (r : Registry) : Prop := ∀ c d, r.Under c d → d.WellFormed

theorem WellNamed.of_mem_ancestors (h : r.WellNamed) {c d : ClassName} (hc : c.WellFormed)
    (hd : d ∈ r.ancestors c) : d.WellFormed := by
  cases r.mem_ancestors_iff.mp hd with
  | refl => exact hc
  | tail _ hunder => exact h _ _ hunder

theorem forall_under {P : ClassName → ClassName → Prop}
    (h : ∀ e ∈ r.classes.entries, ∀ d ∈ e.2.above, P e.1 d) (c d : ClassName)
    (hunder : r.Under c d) :
    P c d := by
  rw [Under, above, class?] at hunder
  cases hget : r.classes.get? c with
  | none =>
    rw [hget] at hunder
    cases hunder
  | some info =>
    rw [hget] at hunder
    exact h (c, info) ((SortedMap.mem_entries_iff _).mpr hget) d hunder

end Registry

namespace Decision

variable {r : Registry} {xs ys : List TypeValue}

/-! ### Without widening -/

theorem any_showsNull_append (h : xs.any (·.showsNull) = true) :
    (xs ++ ys).any (·.showsNull) = true := by
  rw [List.any_append, h, Bool.true_or]

/-- What is decided was decided before, perhaps without null, or nothing was. -/
theorem decided_before {t : TypeValue} (h : ofObservations r false (xs ++ ys) = .decided t) :
    ofObservations r false xs = .nothing ∨
      ∃ u, ofObservations r false xs = .decided u ∧ (t = u ∨ t = u.orNull) := by
  rw [ofObservations_eq, counted_append] at h
  rw [ofObservations_eq]
  cases hcounted : counted xs with
  | nil => exact .inl rfl
  | cons first rest =>
    right
    rw [hcounted] at h
    simp only [List.cons_append] at h
    split at h
    · next hall =>
      rw [List.all_append, Bool.and_eq_true] at hall
      cases h
      simp only [hall.1, if_true]
      by_cases hnull : xs.any (·.showsNull) = true
      · rw [if_pos hnull, if_pos (any_showsNull_append hnull)]
        exact ⟨_, rfl, .inl rfl⟩
      · rw [if_neg hnull]
        refine ⟨_, rfl, ?_⟩
        split
        · exact .inr rfl
        · exact .inl rfl
    · cases h

/-- A conflict stays, with all its names. -/
theorem inconsistent_after {names : List String}
    (h : ofObservations r false xs = .inconsistent names) :
    ∃ more, ofObservations r false (xs ++ ys) = .inconsistent more ∧ names ⊆ more := by
  rw [ofObservations_eq] at h
  rw [ofObservations_eq, counted_append]
  cases hcounted : counted xs with
  | nil =>
    rw [hcounted] at h
    cases h
  | cons first rest =>
    rw [hcounted] at h
    simp only at h
    split at h
    · cases h
    · next hall =>
      cases h
      have hmore : ¬(rest ++ counted ys).all (·.name == first.name) = true := by
        rw [List.all_append, Bool.and_eq_true]
        exact fun h => hall h.1
      simp only [List.cons_append]
      rw [if_neg hmore]
      exact ⟨_, rfl, keys_subset_append⟩

/-! ### With widening -/

/-- The class is above the classes of all the types, and below every class that is. -/
structure LeastAbove (r : Registry) (types : List TypeValue) (c : ClassName) : Prop where
  above : ∀ t ∈ types, ∀ d, t.className? = some d → c ∈ r.ancestors d
  least : ∀ a, (∀ t ∈ types, ∀ d, t.className? = some d → a ∈ r.ancestors d) → a ∈ r.ancestors c

theorem LeastAbove.mem_ancestors {types more : List TypeValue} {c d : ClassName}
    (h : LeastAbove r types c) (hmore : LeastAbove r more d) (hsubset : types ⊆ more) :
    d ∈ r.ancestors c := by
  apply h.least
  intro t ht e he
  exact hmore.above t (hsubset ht) e he

theorem leastAbove_singleton {t : TypeValue} {c : ClassName} (h : t.className? = some c) :
    LeastAbove r [t] c where
  above := by
    intro u hu d hd
    rw [List.mem_singleton.mp hu, h] at hd
    cases hd
    exact r.mem_ancestors_self c
  least := by
    intro a ha
    exact ha t List.mem_cons_self c h

section

variable (hacyclic : r.Acyclic) (hnames : r.WellNamed)
include hacyclic hnames

theorem exists_leastAbove_of_widened? {types : List TypeValue} {type t : TypeValue} {c : ClassName}
    (h : widened? r types = some type) (ht : t ∈ types) (hclass : t.className? = some c)
    (hwell : c.WellFormed) : ∃ d, type.StandsFor d ∧ LeastAbove r types d := by
  obtain ⟨classes, hclasses, rfl, hresolved⟩ := exists_of_widened? h
  obtain ⟨d, hne, hlowest, htype⟩ := r.exists_of_commonAncestor hresolved
  obtain ⟨habove, hleast⟩ := r.least_of_lowest hacyclic hne hlowest
  have hmem : ∀ e, e ∈ classes ↔ ∃ u ∈ types, u.className? = some e := by
    intro e
    have hiff : some e ∈ types.map (·.className?) ↔ some e ∈ classes.map some := by rw [hclasses]
    simpa using hiff.symm
  have hd : d ∈ r.ancestors c := habove c ((hmem c).mpr ⟨t, ht, hclass⟩)
  refine ⟨d, ?_, ?_, ?_⟩
  · rw [htype]
    exact TypeValue.standsFor_ofClassText (hnames.of_mem_ancestors hwell hd)
  · intro u hu e he
    exact habove e ((hmem e).mpr ⟨u, hu, he⟩)
  · intro a ha
    apply hleast
    intro e he
    obtain ⟨u, hu, hue⟩ := (hmem e).mp he
    exact ha u hu e hue

/-- Of types that all have a class, the least class above is decided. -/
theorem exists_leastAbove_of_decided {observed : List TypeValue} {t u : TypeValue} {c : ClassName}
    (h : ofObservations r true observed = .decided t) (hu : u ∈ (distinct observed).values)
    (hclass : u.className? = some c) (hwell : c.WellFormed) :
    ∃ d, t.StandsFor d ∧ LeastAbove r (distinct observed).values d := by
  obtain ⟨type, rfl, hvalues | ⟨-, hwidened⟩⟩ := exists_of_decided h
  · rw [hvalues] at hu ⊢
    obtain rfl := List.mem_singleton.mp hu
    refine ⟨c, ?_, leastAbove_singleton hclass⟩
    split <;> exact .inl hclass
  · obtain ⟨d, hstands, hleast⟩ :=
      exists_leastAbove_of_widened? hacyclic hnames hwidened hu hclass hwell
    refine ⟨d, ?_, hleast⟩
    split <;> exact hstands

end

theorem isSome_className?_of_decided {observed : List TypeValue} {t u : TypeValue}
    (h : ofObservations r true observed = .decided t) (hclass : t.className?.isSome = true)
    (hu : u ∈ (distinct observed).values) : u.className?.isSome = true := by
  obtain ⟨type, rfl, hvalues | ⟨-, hwidened⟩⟩ := exists_of_decided h
  · rw [hvalues] at hu
    obtain rfl := List.mem_singleton.mp hu
    split at hclass <;> exact hclass
  · obtain ⟨classes, hclasses, -⟩ := exists_of_widened? hwidened
    have hmem : u.className? ∈ classes.map some := hclasses ▸ List.mem_map_of_mem hu
    obtain ⟨c, -, hc⟩ := List.mem_map.mp hmem
    rw [← hc]
    rfl

theorem values_ne_nil_of_decided {observed : List TypeValue} {t : TypeValue} {widen : Bool}
    (h : ofObservations r widen observed = .decided t) : (distinct observed).values ≠ [] := by
  intro hnil
  unfold ofObservations at h
  simp only [hnil] at h
  split at h <;> cases h

/-- With more observations a decided class can only move up. -/
theorem mem_ancestors_of_decided (hacyclic : r.Acyclic) (hnames : r.WellNamed)
    (hwell : ∀ t ∈ xs, ∀ c ∈ t.className?, c.WellFormed) {t u : TypeValue} {c : ClassName}
    (ht : ofObservations r true xs = .decided t)
    (hu : ofObservations r true (xs ++ ys) = .decided u) (hclass : u.className? = some c) :
    ∃ b, t.StandsFor b ∧ c ∈ r.ancestors b := by
  obtain ⟨v, hv⟩ := List.exists_mem_of_ne_nil _ (values_ne_nil_of_decided ht)
  have hmore : v ∈ (distinct (xs ++ ys)).values := values_subset_append hv
  obtain ⟨d, hd⟩ := Option.isSome_iff_exists.mp
    (isSome_className?_of_decided hu (by rw [hclass]; rfl) hmore)
  have hd' : d.WellFormed := hwell v (mem_of_mem_counted (mem_counted_of_mem_values hv)) d hd
  obtain ⟨b, hb, hleast⟩ := exists_leastAbove_of_decided hacyclic hnames ht hv hd hd'
  obtain ⟨a, ha, hleast'⟩ := exists_leastAbove_of_decided hacyclic hnames hu hmore hd hd'
  obtain rfl : c = a := by
    rcases ha with ha | ⟨hbuiltin, -⟩
    · rw [hclass] at ha
      exact Option.some.inj ha
    · rw [TypeValue.className?_of_isBuiltin hbuiltin] at hclass
      cases hclass
  exact ⟨b, hb, hleast.mem_ancestors hleast' values_subset_append⟩

/-- More evidence never flips a decision. Without widening it can make the type nullable or bring a
conflict, and a conflict stays. With widening, a class that is decided is above the one that was
decided before, be it that this one has the name of a built-in type. -/
theorem decisions_only_grow (r : Registry) (xs ys : List TypeValue) :
    (∀ t, ofObservations r false (xs ++ ys) = .decided t →
      ofObservations r false xs = .nothing ∨
        ∃ u, ofObservations r false xs = .decided u ∧ (t = u ∨ t = u.orNull)) ∧
    (∀ names, ofObservations r false xs = .inconsistent names →
      ∃ more, ofObservations r false (xs ++ ys) = .inconsistent more ∧ names ⊆ more) ∧
    (r.Acyclic → r.WellNamed → (∀ t ∈ xs, ∀ c ∈ t.className?, c.WellFormed) →
      ∀ t u c, ofObservations r true xs = .decided t →
      ofObservations r true (xs ++ ys) = .decided u →
        u.className? = some c → ∃ b, t.StandsFor b ∧ c ∈ r.ancestors b) := by
  refine ⟨fun t => decided_before, fun names => inconsistent_after, ?_⟩
  intro hacyclic hnames hwell t u c ht hu hclass
  exact mem_ancestors_of_decided hacyclic hnames hwell ht hu hclass

/-- Classes under a class of their own and under one with the name of a built-in type. -/
def figures : Registry :=
  [({ name := ⟨"Square"⟩, parent := some ⟨"Polygon"⟩ } : ClassInfo),
   { name := ⟨"Triangle"⟩, parent := some ⟨"Polygon"⟩ },
   { name := ⟨"Polygon"⟩, interfaces := [⟨"Shape"⟩] },
   { name := ⟨"Row"⟩, parent := some ⟨"array"⟩ }, { name := ⟨"Column"⟩, parent := some ⟨"array"⟩ },
   { name := ⟨"array"⟩, parent := some ⟨"Shape"⟩ },
   { name := ⟨"Circle"⟩, interfaces := [⟨"Shape"⟩] }].foldl
    Registry.addClass {}

theorem acyclic_figures : figures.Acyclic := by
  let rank (c : ClassName) : Nat :=
    if c = ⟨"Shape"⟩ then 0 else if c = ⟨"Polygon"⟩ ∨ c = ⟨"array"⟩ then 1 else 2
  apply figures.acyclic_of_rank rank
  apply Registry.forall_under
  decide +kernel

theorem wellNamed_figures : figures.WellNamed := by
  apply Registry.forall_under
  decide +kernel

theorem ancestors_figures :
    figures.ancestors ⟨"Shape"⟩ = [⟨"Shape"⟩] ∧
      figures.ancestors ⟨"Polygon"⟩ = [⟨"Polygon"⟩, ⟨"Shape"⟩] ∧
      figures.ancestors ⟨"array"⟩ = [⟨"array"⟩, ⟨"Shape"⟩] ∧
      figures.ancestors ⟨"Square"⟩ = [⟨"Square"⟩, ⟨"Polygon"⟩, ⟨"Shape"⟩] ∧
      figures.ancestors ⟨"Triangle"⟩ = [⟨"Triangle"⟩, ⟨"Polygon"⟩, ⟨"Shape"⟩] ∧
      figures.ancestors ⟨"Row"⟩ = [⟨"Row"⟩, ⟨"array"⟩, ⟨"Shape"⟩] ∧
      figures.ancestors ⟨"Column"⟩ = [⟨"Column"⟩, ⟨"array"⟩, ⟨"Shape"⟩] ∧
      figures.ancestors ⟨"Circle"⟩ = [⟨"Circle"⟩, ⟨"Shape"⟩] := by
  have habove : figures.above ⟨"Shape"⟩ = [] ∧ figures.above ⟨"Polygon"⟩ = [⟨"Shape"⟩] ∧
      figures.above ⟨"array"⟩ = [⟨"Shape"⟩] ∧ figures.above ⟨"Square"⟩ = [⟨"Polygon"⟩] ∧
      figures.above ⟨"Triangle"⟩ = [⟨"Polygon"⟩] ∧ figures.above ⟨"Row"⟩ = [⟨"array"⟩] ∧
      figures.above ⟨"Column"⟩ = [⟨"array"⟩] ∧ figures.above ⟨"Circle"⟩ = [⟨"Shape"⟩] := by
    decide +kernel
  simp [Registry.ancestors, Registry.walk, habove]

theorem widened?_figures :
    widened? figures [.object "" "Square", .object "" "Triangle"] = some (.object "" "Polygon") ∧
      widened? figures [.object "" "Circle", .object "" "Square", .object "" "Triangle"] =
        some (.object "" "Shape") ∧
      widened? figures [.object "" "Column", .object "" "Row"] = some .array ∧
      widened? figures [.object "" "Circle", .object "" "Column", .object "" "Row"] =
        some (.object "" "Shape") := by
  have hlowest :
      figures.lowest (figures.sharedAncestors [⟨"Square"⟩, ⟨"Triangle"⟩]) = [⟨"Polygon"⟩] ∧
      figures.lowest (figures.sharedAncestors [⟨"Circle"⟩, ⟨"Square"⟩, ⟨"Triangle"⟩]) =
        [⟨"Shape"⟩] ∧
      figures.lowest (figures.sharedAncestors [⟨"Column"⟩, ⟨"Row"⟩]) = [⟨"array"⟩] ∧
      figures.lowest (figures.sharedAncestors [⟨"Circle"⟩, ⟨"Column"⟩, ⟨"Row"⟩]) = [⟨"Shape"⟩] := by
    simp [Registry.lowest, Registry.sharedAncestors, ancestors_figures]
  obtain ⟨hpolygon, hshape, harray, hshape'⟩ := hlowest
  refine ⟨?_, ?_, ?_, ?_⟩
  · exact (widened?_of_lowest (by decide +kernel) (by simp) hpolygon).trans (by decide +kernel)
  · exact (widened?_of_lowest (by decide +kernel) (by simp) hshape).trans (by decide +kernel)
  · exact (widened?_of_lowest (by decide +kernel) (by simp) harray).trans (by decide +kernel)
  · exact (widened?_of_lowest (by decide +kernel) (by simp) hshape').trans (by decide +kernel)

theorem decisions_only_grow_figures :
    let seen : List TypeValue := [.object "" "Square", .object "" "Triangle"]
    figures.Acyclic ∧ figures.WellNamed ∧ (∀ t ∈ seen, ∀ c ∈ t.className?, c.WellFormed) ∧
      ofObservations figures true seen = .decided (.object "" "Polygon") ∧
      ofObservations figures true (seen ++ [.object "" "Circle"]) = .decided (.object "" "Shape") ∧
      ∃ b, (TypeValue.object "" "Polygon").StandsFor b ∧ ⟨"Shape"⟩ ∈ figures.ancestors b := by
  intro seen
  have hwell : ∀ t ∈ seen, ∀ c ∈ t.className?, c.WellFormed := by decide +kernel
  obtain ⟨htwo, hthree, -⟩ := widened?_figures
  have hbefore : ofObservations figures true seen = .decided (.object "" "Polygon") :=
    ofObservations_of_widened? (by decide +kernel) htwo
  have hafter : ofObservations figures true (seen ++ [.object "" "Circle"]) =
      .decided (.object "" "Shape") :=
    ofObservations_of_widened? (by decide +kernel) hthree
  obtain ⟨-, -, hgrow⟩ := decisions_only_grow figures seen [.object "" "Circle"]
  exact ⟨acyclic_figures, wellNamed_figures, hwell, hbefore, hafter,
    hgrow acyclic_figures wellNamed_figures hwell _ _ _ hbefore hafter (by decide +kernel)⟩

/-- Widened to a class with the name of a built-in type, the decision is that type and has no class,
while one more observation leads to a class. -/
theorem widens_to_builtin :
    let seen : List TypeValue := [.object "" "Row", .object "" "Column"]
    figures.Acyclic ∧ figures.WellNamed ∧ (∀ t ∈ seen, ∀ c ∈ t.className?, c.WellFormed) ∧
      ofObservations figures true seen = .decided .array ∧
      ofObservations figures true (seen ++ [.object "" "Circle"]) = .decided (.object "" "Shape") ∧
      (TypeValue.object "" "Shape").className? = some ⟨"Shape"⟩ ∧
      ¬∃ b, TypeValue.array.className? = some b ∧ ⟨"Shape"⟩ ∈ figures.ancestors b := by
  intro seen
  obtain ⟨-, -, htwo, hthree⟩ := widened?_figures
  refine ⟨acyclic_figures, wellNamed_figures, by decide +kernel, ?_, ?_, by decide +kernel, ?_⟩
  · exact ofObservations_of_widened? (by decide +kernel) htwo
  · exact ofObservations_of_widened? (by decide +kernel) hthree
  · rintro ⟨b, hb, -⟩
    cases hb

end Decision
end SignatureInference
