import SignatureInference.Proofs.Decision.Distinct
import SignatureInference.Proofs.TypeNames

/-! # The order of observations

A decision keeps the first observation of each type name. Since types of the same name are written
alike unless just one of them is that of an object, this first one does not matter as long as no
object shares its name with a scalar or an unresolved type. Without widening it matters exactly
where such a name is the only one.
-/
namespace SignatureInference

inductive Observation where
  /-- A value in a trace. -/
  | traced (raw : String)
  /-- A type in a doc comment, for a method of the class `owner`, written in the class `scope`. -/
  | documented (text : String) (owner scope : ClassInfo)

def Observation.type? (index : Index) : Observation → Option TypeValue
  | traced raw => some (Trace.valueType raw)
  | documented text owner scope => DocType.resolve text owner scope index

theorem Observation.shortNamed {index : Index} {o : Observation} {t : TypeValue}
    (h : o.type? index = some t) : t.ShortNamed := by
  cases o with
  | traced raw =>
    cases h
    exact Trace.shortNamed_valueType raw
  | documented text owner scope => exact DocType.shortNamed_resolve owner scope index h

namespace Decision

/-- What is seen of a decision: nothing, what it declares, or the names that it reports. -/
def shown : Decision → Option (Option DeclaredType ⊕ List String)
  | nothing => none
  | decided type => some (.inl (DeclaredType.ofValue? type))
  | inconsistent names => some (.inr names)

/-- No object that counts shares its name with something that is no object. -/
def ObjectsApart (observed : List TypeValue) : Prop :=
  ∀ t ∈ counted observed, ∀ u ∈ counted observed, t.name = u.name → t.isObject = u.isObject

instance (observed : List TypeValue) : Decidable (ObjectsApart observed) :=
  inferInstanceAs
    (Decidable (∀ t ∈ counted observed, ∀ u ∈ counted observed, t.name = u.name →
      t.isObject = u.isObject))

variable {r : Registry} {widen : Bool} {xs ys : List TypeValue}

/-! ### Any order -/

theorem mem_counted_perm (h : ys.Perm xs) {t : TypeValue} : t ∈ counted ys ↔ t ∈ counted xs :=
  (h.filter _).mem_iff

theorem any_showsNull_perm (h : ys.Perm xs) : ys.any (·.showsNull) = xs.any (·.showsNull) := by
  rw [Bool.eq_iff_iff, List.any_eq_true, List.any_eq_true]
  simp only [h.mem_iff]

theorem keys_distinct_perm (h : ys.Perm xs) : (distinct ys).keys = (distinct xs).keys := by
  apply SortedMap.keys_eq_of_contains
  intro k
  rw [Bool.eq_iff_iff, ← SortedMap.mem_keys_iff, ← SortedMap.mem_keys_iff, mem_keys_distinct,
    mem_keys_distinct]
  simp only [mem_counted_perm h]

theorem map_values_distinct_perm {β : Type} (f : TypeValue → β) (h : ys.Perm xs)
    (hsame : ∀ t ∈ counted xs, ∀ u ∈ counted xs, t.name = u.name → f t = f u) :
    (distinct ys).values.map f = (distinct xs).values.map f := by
  apply SortedMap.map_values_eq
  intro k
  rw [get?_distinct, get?_distinct]
  cases hy : (counted ys).find? (·.name = k) with
  | none =>
    have hx : (counted xs).find? (·.name = k) = none := by
      rw [List.find?_eq_none] at hy ⊢
      intro t ht
      exact hy t ((mem_counted_perm h).mpr ht)
    rw [hx]
  | some u =>
    have hu := (mem_counted_perm h).mp (List.mem_of_find?_eq_some hy)
    have hname : u.name = k := by simpa using List.find?_some hy
    obtain ⟨t, hx⟩ : ∃ t, (counted xs).find? (·.name = k) = some t := by
      rw [← Option.isSome_iff_exists, List.find?_isSome]
      exact ⟨u, hu, by simpa using hname⟩
    have hname' : t.name = k := by simpa using List.find?_some hx
    rw [hx, Option.map_some, Option.map_some,
      hsame u hu t (List.mem_of_find?_eq_some hx) (hname.trans hname'.symm)]

theorem widened?_congr {ts us : List TypeValue}
    (h : ts.map (·.className?) = us.map (·.className?)) :
    widened? r ts = widened? r us := by
  have hmapM : ∀ vs : List TypeValue, vs.mapM (·.className?) = (vs.map (·.className?)).mapM id := by
    intro vs
    rw [List.mapM_map]
    rfl
  rw [widened?, widened?, hmapM ts, hmapM us, h]

theorem ofValue?_of_mem_values {observed : List TypeValue} {t : TypeValue}
    (h : t ∈ (distinct observed).values) :
    DeclaredType.ofValue? (if observed.any (·.showsNull) then t.orNull else t) =
      t.hintName?.map fun name => ⟨name, observed.any (·.showsNull)⟩ := by
  have hnull : t.nullable = true → observed.any (·.showsNull) = true :=
    fun hnullable => any_showsNull.mpr (.inr ⟨t, mem_counted_of_mem_values h, hnullable⟩)
  have hdecided := Report.ofValue?_decided hnull false
  rw [Bool.or_false] at hdecided
  exact hdecided

/-- Where all observations of a name are written alike and of the same class, their order does not
matter. -/
theorem shown_of_perm (h : ys.Perm xs)
    (hsame : ∀ t ∈ counted xs, ∀ u ∈ counted xs, t.name = u.name →
      t.hintName? = u.hintName? ∧ t.className? = u.className?) :
    (ofObservations r widen ys).shown = (ofObservations r widen xs).shown := by
  have hhints := map_values_distinct_perm TypeValue.hintName? h fun t ht u hu hname =>
    (hsame t ht u hu hname).1
  have hclasses := map_values_distinct_perm TypeValue.className? h fun t ht u hu hname =>
    (hsame t ht u hu hname).2
  have hnull := any_showsNull_perm h
  -- in both orders there are as many types: none, one or several
  cases hy : (distinct ys).values with
  | nil =>
    rw [hy, List.map_nil, eq_comm, List.map_eq_nil_iff] at hhints
    rw [ofObservations_nil hy, ofObservations_nil hhints]
  | cons u us =>
    rw [hy, List.map_cons, eq_comm, List.map_eq_cons_iff] at hhints
    obtain ⟨t, ts, hx, hhint, hrest⟩ := hhints
    cases us with
    | nil =>
      rw [List.map_nil, List.map_eq_nil_iff] at hrest
      subst hrest
      have hu := ofValue?_of_mem_values (hy ▸ List.mem_singleton_self u)
      have ht := ofValue?_of_mem_values (hx ▸ List.mem_singleton_self t)
      rw [ofObservations_single hy, ofObservations_single hx, shown, shown, hu, ht, hhint, hnull]
    | cons v vs =>
      rw [List.map_cons, List.map_eq_cons_iff] at hrest
      obtain ⟨b, rest, rfl, -, -⟩ := hrest
      rw [hy, hx] at hclasses
      rw [ofObservations_several hy, ofObservations_several hx, widened?_congr hclasses, hnull,
        keys_distinct_perm h]

/-- With objects apart, the order of short-named types does not matter. -/
theorem shown_of_objectsApart (hshort : ∀ t ∈ xs, t.ShortNamed) (hapart : ObjectsApart xs)
    (h : ys.Perm xs) : (ofObservations r widen ys).shown = (ofObservations r widen xs).shown := by
  apply shown_of_perm h
  intro t ht u hu hname
  exact TypeValue.alike_of_name (hshort t (mem_of_mem_counted ht))
    (hshort u (mem_of_mem_counted hu))
    (hapart t ht u hu hname) hname

/-! ### Where the order matters -/

theorem disagree_perm (h : ys.Perm xs) : Disagree ys ↔ Disagree xs := by
  simp only [Disagree, mem_counted_perm h]

theorem ofObservations_of_disagree (h : Disagree xs) :
    ofObservations r false xs = .inconsistent (distinct xs).keys := by
  rw [ofObservations_eq]
  cases hcounted : counted xs with
  | nil =>
    obtain ⟨t, ht, -⟩ := h
    rw [hcounted] at ht
    cases ht
  | cons t rest =>
    have hnot : ¬rest.all (·.name == t.name) = true := fun hall => (all_name_iff hcounted).mp hall h
    exact if_neg hnot

/-- Where all names agree, the observation that comes first is declared. -/
theorem exists_perm_declaring (hagree : ¬Disagree xs) {t : TypeValue} (ht : t ∈ counted xs) :
    ∃ ys, ys.Perm xs ∧ ∃ type, ofObservations r false ys = .decided type ∧
      (DeclaredType.ofValue? type).map (·.name) = t.hintName? := by
  have hperm : (t :: xs.erase t).Perm xs := (List.perm_cons_erase (mem_of_mem_counted ht)).symm
  have htakes : t.takesPart = true := List.of_mem_filter ht
  have hcounted : counted (t :: xs.erase t) = t :: counted (xs.erase t) :=
    List.filter_cons_of_pos htakes
  have hall := (all_name_iff hcounted).mpr (mt (disagree_perm hperm).mp hagree)
  have hdecided : ofObservations r false (t :: xs.erase t) =
      .decided (if (t :: xs.erase t).any (·.showsNull) then t.orNull else t) := by
    rw [ofObservations_eq, hcounted]
    exact if_pos hall
  have hhint : ∀ null : Bool, (if null then t.orNull else t).hintName? = t.hintName? := by
    intro null
    cases null <;> rfl
  refine ⟨_, hperm, _, hdecided, ?_⟩
  rw [DeclaredType.ofValue?, hhint, Option.map_map]
  exact Option.map_id_apply

/-- The types that are read from traces and doc comments lead to the same decision in any order,
with or without widening, as long as no object among them shares its name with something else.
Without widening, the order matters exactly if there is such a name and no other. -/
theorem order_irrelevant_iff (r : Registry) (index : Index) (observations : List Observation) :
    let observed := observations.filterMap (·.type? index)
    (ObjectsApart observed → ∀ widen ys, ys.Perm observed →
      (ofObservations r widen ys).shown = (ofObservations r widen observed).shown) ∧
    ((∀ ys, ys.Perm observed →
        (ofObservations r false ys).shown = (ofObservations r false observed).shown) ↔
      ObjectsApart observed ∨ Disagree observed) := by
  intro observed
  have hshort : ∀ t ∈ observed, t.ShortNamed := by
    intro t ht
    obtain ⟨o, -, ho⟩ := List.mem_filterMap.mp ht
    exact Observation.shortNamed ho
  have hapart : ObjectsApart observed → ∀ widen ys, ys.Perm observed →
      (ofObservations r widen ys).shown = (ofObservations r widen observed).shown :=
    fun hapart widen ys hperm => shown_of_objectsApart hshort hapart hperm
  refine ⟨hapart, ?_, ?_⟩
  · intro hshown
    by_contra hnot
    rw [not_or] at hnot
    obtain ⟨hclash, hagree⟩ := hnot
    apply hclash
    -- each of two observations can come first, and what is declared tells them apart
    have hhints : ∀ t ∈ counted observed, ∀ u ∈ counted observed, t.hintName? = u.hintName? := by
      intro t ht u hu
      obtain ⟨ys, hys, a, ha, hat⟩ := exists_perm_declaring (r := r) hagree ht
      obtain ⟨zs, hzs, b, hb, hbu⟩ := exists_perm_declaring (r := r) hagree hu
      have hsame := (hshown ys hys).trans (hshown zs hzs).symm
      rw [ha, hb] at hsame
      have hsame : DeclaredType.ofValue? a = DeclaredType.ofValue? b :=
        Sum.inl.inj (Option.some.inj hsame)
      rw [← hat, ← hbu, hsame]
    intro t ht u hu hname
    cases htobj : t.isObject with
    | true =>
      cases huobj : u.isObject with
      | true => rfl
      | false => exact absurd (hhints t ht u hu) (TypeValue.hintName?_ne_of_name htobj huobj hname)
    | false =>
      cases huobj : u.isObject with
      | true =>
        exact absurd (hhints u hu t ht) (TypeValue.hintName?_ne_of_name huobj htobj hname.symm)
      | false => rfl
  · rintro (h | h) ys hperm
    · exact hapart h false ys hperm
    · rw [ofObservations_of_disagree h, ofObservations_of_disagree ((disagree_perm hperm).mpr h)]
      rw [keys_distinct_perm hperm]

theorem order_irrelevant_for_squares :
    let square : ClassInfo := { name := ⟨"App\\Square"⟩ }
    let observed := [Observation.traced "class App\\Square \x7b \x7d", .traced "NULL",
      .documented "static" square square,
      .documented "?\\App\\Square" square square].filterMap (·.type? {})
    ObjectsApart observed ∧ ∀ ys, ys.Perm observed →
      (ofObservations {} true ys).shown = some (.inl (some ⟨"\\App\\Square", true⟩)) := by
  intro square observed
  have hapart : ObjectsApart observed := by decide +kernel
  have hshown : (ofObservations {} true observed).shown =
      some (.inl (some ⟨"\\App\\Square", true⟩)) := by decide +kernel
  refine ⟨hapart, ?_⟩
  intro ys hperm
  exact ((order_irrelevant_iff {} {} _).1 hapart true ys hperm).trans hshown

/-- A value that is printed as `string` is taken for an object of a class with that name. Next to a
string in quotation marks, whichever comes first is declared. -/
theorem order_matters_for_strings :
    let observed := [Observation.traced "'abc'", .traced "string"].filterMap (·.type? {})
    observed = [.scalar .string, .object "" "string"] ∧ observed.reverse.Perm observed ∧
      (ofObservations {} false observed).shown = some (.inl (some ⟨"string", false⟩)) ∧
      (ofObservations {} false observed.reverse).shown =
        some (.inl (some ⟨"\\string", false⟩)) := by
  intro observed
  exact ⟨by decide +kernel, List.reverse_perm observed, by decide +kernel, by decide +kernel⟩

end Decision
end SignatureInference
