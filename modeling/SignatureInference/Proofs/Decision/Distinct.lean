import SignatureInference.Proofs.Lists
import SignatureInference.Proofs.Report.Decisions

/-! # The distinct types among observations

A decision is taken on the first observation of each type name. Either there is one name, or the
classes of all of them are widened to a class above.
-/
namespace SignatureInference

theorem counted_append (xs ys : List TypeValue) : counted (xs ++ ys) = counted xs ++ counted ys :=
  List.filter_append ..

theorem mem_of_mem_counted {observed : List TypeValue} {t : TypeValue} (h : t ∈ counted observed) :
    t ∈ observed :=
  List.mem_of_mem_filter h

namespace Decision

variable {r : Registry} {widen : Bool} {observed xs ys : List TypeValue} {t : TypeValue}

theorem mem_values_distinct :
    t ∈ (distinct observed).values ↔ (counted observed).find? (·.name = t.name) = some t := by
  rw [SortedMap.values, List.mem_map]
  constructor
  · rintro ⟨⟨k, v⟩, he, rfl⟩
    have hfind := (SortedMap.mem_entries_iff _).mp he
    rw [get?_distinct] at hfind
    obtain rfl : v.name = k := by simpa using List.find?_some hfind
    exact hfind
  · intro hfind
    rw [← get?_distinct] at hfind
    exact ⟨(t.name, t), (SortedMap.mem_entries_iff _).mpr hfind, rfl⟩

theorem mem_counted_of_mem_values (h : t ∈ (distinct observed).values) : t ∈ counted observed :=
  List.mem_of_find?_eq_some (mem_values_distinct.mp h)

theorem mem_keys_distinct {k : String} :
    k ∈ (distinct observed).keys ↔ ∃ t ∈ counted observed, t.name = k := by
  rw [SortedMap.mem_keys_iff, SortedMap.contains, get?_distinct, List.find?_isSome]
  simp

/-- Later observations do not take the place of earlier ones. -/
theorem values_subset_append : (distinct xs).values ⊆ (distinct (xs ++ ys)).values := by
  intro t ht
  rw [mem_values_distinct] at ht ⊢
  rw [counted_append, List.find?_append, ht, Option.some_or]

theorem keys_subset_append : (distinct xs).keys ⊆ (distinct (xs ++ ys)).keys := by
  intro k hk
  rw [mem_keys_distinct] at hk ⊢
  obtain ⟨t, ht, hname⟩ := hk
  rw [counted_append]
  exact ⟨t, List.mem_append_left _ ht, hname⟩

/-- A decision is the only type or the one that several types are widened to, admitting null if null
occurs. -/
theorem exists_of_decided (h : ofObservations r widen observed = .decided t) :
    ∃ type, t = (if observed.any (·.showsNull) then type.orNull else type) ∧
      ((distinct observed).values = [type] ∨
        widen = true ∧ widened? r (distinct observed).values = some type) := by
  unfold ofObservations at h
  simp only at h
  split at h
  · cases h
  · next hne =>
    split at h
    · next type htype =>
      cases h
      refine ⟨type, rfl, ?_⟩
      split at htype
      · cases htype
      · next hvalues =>
        cases htype
        exact .inl hvalues
      · split at htype
        · next hwiden => exact .inr ⟨hwiden, htype⟩
        · cases htype
    · cases h

theorem isEmpty_eq_values (observed : List TypeValue) :
    (distinct observed).isEmpty = (distinct observed).values.isEmpty := by
  rw [SortedMap.isEmpty, SortedMap.values, List.isEmpty_map]

theorem ofObservations_nil (h : (distinct observed).values = []) :
    ofObservations r widen observed = .nothing := by
  simp [ofObservations, isEmpty_eq_values, h]

theorem ofObservations_single (h : (distinct observed).values = [t]) :
    ofObservations r widen observed =
      .decided (if observed.any (·.showsNull) then t.orNull else t) := by
  simp [ofObservations, isEmpty_eq_values, h]

/-- Several types are widened, if that is wanted and possible, and conflict otherwise. -/
theorem ofObservations_several {a b : TypeValue} {rest : List TypeValue}
    (h : (distinct observed).values = a :: b :: rest) :
    ofObservations r widen observed =
      ((if widen then widened? r (a :: b :: rest) else none).map fun type =>
        .decided (if observed.any (·.showsNull) then type.orNull else type)).getD
          (.inconsistent (distinct observed).keys) := by
  simp only [ofObservations, isEmpty_eq_values, h]
  cases (if widen then widened? r (a :: b :: rest) else none) <;> rfl

theorem ofObservations_of_widened? {a b type : TypeValue} {rest : List TypeValue}
    (hvalues : (distinct observed).values = a :: b :: rest)
    (h : widened? r (a :: b :: rest) = some type) :
    ofObservations r true observed =
      .decided (if observed.any (·.showsNull) then type.orNull else type) := by
  rw [ofObservations_several hvalues, if_pos rfl, h]
  rfl

theorem exists_of_widened? {types : List TypeValue} {type : TypeValue}
    (h : widened? r types = some type) :
    ∃ classes, types.map (·.className?) = classes.map some ∧ type = r.commonAncestor classes ∧
      type.isResolved = true := by
  obtain ⟨classes, hclasses, h⟩ := Option.bind_eq_some_iff.mp h
  refine ⟨classes, map_of_mapM hclasses, ?_⟩
  simp only at h
  split at h
  · next hresolved =>
    cases h
    exact ⟨rfl, hresolved⟩
  · cases h

theorem widened?_of_lowest {types : List TypeValue} {classes : List ClassName} {c : ClassName}
    (hclasses : types.mapM (·.className?) = some classes) (hne : classes ≠ [])
    (hlowest : r.lowest (r.sharedAncestors classes) = [c]) :
    widened? r types = some (.ofClassText c.text) := by
  have hcommon : r.commonAncestor classes = .ofClassText c.text := by
    rw [Registry.commonAncestor, if_neg hne, hlowest]
  rw [widened?, hclasses, Option.bind_eq_bind, Option.bind_some, hcommon]
  exact if_pos rfl

end Decision
end SignatureInference
