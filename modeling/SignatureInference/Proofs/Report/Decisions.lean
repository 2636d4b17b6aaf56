import SignatureInference.Proofs.SortedMap
import SignatureInference.Report

/-! # Agreement of observations

Observations decide on a type if all of those that count have the name of the first one. Nulls and
doc comments without a type do not count.
-/
namespace SignatureInference

/-- The observations that have to agree: all but observed nulls and doc comments without a type. -/
def counted (observed : List TypeValue) : List TypeValue :=
  observed.filter fun t => t.reason? != some .none && t.reason? != some .docComment

/-- All observations that count have the name of the first one, which is a usable type. -/
structure Agreed (observed : List TypeValue) (first : TypeValue) : Prop where
  head : (counted observed).head? = some first
  usable : first.isResolved = true
  same : ∀ t ∈ counted observed, t.name = first.name

/-- Whether null occurs: it was observed as such, or a type that counts admits it. -/
def ShowsNull (observed : List TypeValue) : Prop :=
  (∃ t ∈ observed, t.reason? = some .none) ∨ ∃ t ∈ counted observed, t.nullable = true

def Disagree (observed : List TypeValue) : Prop :=
  ∃ t ∈ counted observed, ∃ u ∈ counted observed, t.name ≠ u.name

namespace Decision

variable {observed : List TypeValue}

theorem any_showsNull : observed.any (·.showsNull) = true ↔ ShowsNull observed := by
  simp only [List.any_eq_true, ShowsNull, counted, TypeValue.showsNull, TypeValue.takesPart,
    List.mem_filter, Bool.or_eq_true, Bool.and_eq_true, beq_iff_eq]
  constructor
  · rintro ⟨t, ht, hnone | ⟨hcounts, hnull⟩⟩
    · exact .inl ⟨t, ht, hnone⟩
    · exact .inr ⟨t, ⟨ht, hcounts⟩, hnull⟩
  · rintro (⟨t, ht, hnone⟩ | ⟨t, ⟨ht, hcounts⟩, hnull⟩)
    · exact ⟨t, ht, .inl hnone⟩
    · exact ⟨t, ht, .inr ⟨hcounts, hnull⟩⟩

theorem distinct_eq :
    distinct observed = (counted observed).foldl (fun m t => m.insertIfNew t.name t) ∅ := rfl

theorem get?_distinct (k : String) :
    (distinct observed).get? k = (counted observed).find? fun t => t.name = k := by
  have hempty : (∅ : SortedMap String TypeValue).get? k = none := rfl
  have h := SortedMap.get?_foldl_insertIfNew TypeValue.name id (counted observed) ∅ k
  rw [hempty, Option.none_or, Option.map_id_fun] at h
  exact h

theorem entries_distinct_of_same {t : TypeValue} {rest : List TypeValue}
    (h : counted observed = t :: rest) (hsame : ∀ u ∈ rest, u.name = t.name) :
    (distinct observed).entries = [(t.name, t)] := by
  have hkeep : ∀ us : List TypeValue, (∀ u ∈ us, u.name = t.name) →
      ∀ m : SortedMap String TypeValue, m.entries = [(t.name, t)] →
        (us.foldl (fun m u => m.insertIfNew u.name u) m).entries = [(t.name, t)] := by
    intro us hus
    induction us with
    | nil => exact fun m hm => hm
    | cons u us ih =>
      intro m hm
      refine ih (fun v hv => hus v (List.mem_cons_of_mem _ hv)) _ ?_
      change SortedMap.place u.name _ m.entries = _
      rw [hm, hus u List.mem_cons_self]
      simp [SortedMap.place]
  rw [distinct_eq, h, List.foldl_cons]
  exact hkeep rest hsame _ rfl

theorem counted_of_entries {k : String} {t : TypeValue}
    (h : (distinct observed).entries = [(k, t)]) :
    ∃ rest, counted observed = t :: rest ∧ ∀ u ∈ rest, u.name = t.name := by
  have hget : ∀ u ∈ counted observed, ∃ v, (distinct observed).get? u.name = some v := by
    intro u hu
    rw [get?_distinct]
    exact Option.isSome_iff_exists.mp (List.find?_isSome.mpr ⟨u, hu, by simp⟩)
  have hname : ∀ u ∈ counted observed, u.name = k := by
    intro u hu
    obtain ⟨v, hv⟩ := hget u hu
    have hmem := (SortedMap.mem_entries_iff _).mpr hv
    rw [h, List.mem_singleton] at hmem
    exact (Prod.mk.inj hmem).1
  cases hcounted : counted observed with
  | nil =>
    rw [distinct_eq, hcounted] at h
    cases h
  | cons u rest =>
    have hk := hname u (hcounted ▸ List.mem_cons_self)
    have hfirst : (distinct observed).get? k = some u := by
      rw [get?_distinct, hcounted, List.find?_cons_of_pos (by simp [hk])]
    have hmem := (SortedMap.mem_entries_iff _).mpr hfirst
    rw [h, List.mem_singleton] at hmem
    obtain rfl := (Prod.mk.inj hmem).2
    refine ⟨rest, rfl, fun v hv => ?_⟩
    rw [hk, hname v (hcounted ▸ List.mem_cons_of_mem _ hv)]

theorem isEmpty_distinct : (distinct observed).isEmpty = true ↔ counted observed = [] := by
  constructor
  · intro h
    by_contra hne
    obtain ⟨t, rest, ht⟩ := List.exists_cons_of_ne_nil hne
    have hget : (distinct observed).get? t.name = some t := by
      rw [get?_distinct, ht, List.find?_cons_of_pos (by simp)]
    have hmem := (SortedMap.mem_entries_iff _).mpr hget
    rw [List.isEmpty_iff.mp h] at hmem
    cases hmem
  · intro h
    rw [distinct_eq, h]
    rfl

theorem isEmpty_keys_distinct {t : TypeValue} {rest : List TypeValue}
    (h : counted observed = t :: rest) :
    (distinct observed).keys.isEmpty = false := by
  rw [SortedMap.keys, List.isEmpty_map, ← Bool.not_eq_true]
  intro hempty
  rw [isEmpty_distinct.mp hempty] at h
  cases h

/-- Without widening the first observation that counts decides, if all others have its name. -/
theorem ofObservations_eq (r : Registry) (observed : List TypeValue) :
    ofObservations r false observed =
      match counted observed with
      | [] => .nothing
      | t :: rest =>
        if rest.all (·.name == t.name) then
          .decided (if observed.any (·.showsNull) then t.orNull else t)
        else .inconsistent (distinct observed).keys := by
  unfold ofObservations
  cases hcounted : counted observed with
  | nil => simp [isEmpty_distinct.mpr hcounted]
  | cons t rest =>
    have hne : (distinct observed).isEmpty = false := by
      rw [← isEmpty_keys_distinct hcounted, SortedMap.keys, List.isEmpty_map, SortedMap.isEmpty]
    by_cases hsame : rest.all (·.name == t.name) = true
    · have hentries := entries_distinct_of_same hcounted (by simpa using hsame)
      have hvalues : (distinct observed).values = [t] := by rw [SortedMap.values, hentries]; rfl
      simp [hne, hsame, hvalues]
    · -- neither no value nor one, hence several
      obtain ⟨a, b, more, hvalues⟩ : ∃ a b more, (distinct observed).values = a :: b :: more := by
        rw [SortedMap.values]
        cases hentries : (distinct observed).entries with
        | nil =>
          rw [SortedMap.isEmpty, hentries] at hne
          cases hne
        | cons a others =>
          cases others with
          | nil =>
            obtain ⟨rest', he, hall⟩ := counted_of_entries hentries
            rw [hcounted] at he
            obtain ⟨rfl, rfl⟩ := List.cons.inj he
            exact absurd (by simpa using hall) hsame
          | cons b more => exact ⟨a.2, b.2, more.map (·.2), rfl⟩
      simp [hne, hsame, hvalues]

theorem agreed_iff {t : TypeValue} :
    Agreed observed t ↔
      ∃ rest, counted observed = t :: rest ∧ rest.all (·.name == t.name) = true ∧
      t.isResolved = true := by
  constructor
  · rintro ⟨hhead, husable, hsame⟩
    obtain ⟨rest, hrest⟩ := List.head?_eq_some_iff.mp hhead
    refine ⟨rest, hrest, ?_, husable⟩
    rw [List.all_eq_true]
    intro u hu
    exact beq_iff_eq.mpr (hsame u (hrest ▸ List.mem_cons_of_mem _ hu))
  · rintro ⟨rest, hrest, hall, husable⟩
    refine ⟨by rw [hrest]; rfl, husable, ?_⟩
    intro u hu
    rw [hrest] at hu
    rcases List.mem_cons.mp hu with rfl | hu
    · rfl
    · exact beq_iff_eq.mp (List.all_eq_true.mp hall u hu)

theorem all_name_iff {t : TypeValue} {rest : List TypeValue} (h : counted observed = t :: rest) :
    rest.all (·.name == t.name) = true ↔ ¬Disagree observed := by
  rw [Disagree, h, List.all_eq_true]
  constructor
  · rintro hall ⟨u, hu, v, hv, hne⟩
    have hname : ∀ w ∈ t :: rest, w.name = t.name := by
      intro w hw
      rcases List.mem_cons.mp hw with rfl | hw
      · rfl
      · exact beq_iff_eq.mp (hall w hw)
    exact hne ((hname u hu).trans (hname v hv).symm)
  · intro hno u hu
    rw [beq_iff_eq]
    by_contra hne
    exact hno ⟨u, List.mem_cons_of_mem _ hu, t, List.mem_cons_self, hne⟩

end Decision

/-- The type that observations support: the name of the agreed one, admitting null if null
occurs. -/
structure Supports (observed : List TypeValue) (defaultsToNull : Bool)
    (type : DeclaredType) : Prop where
  name_eq : ∃ first, Agreed observed first ∧ first.hintName? = some type.name
  nullable_iff : type.nullable = true ↔ ShowsNull observed ∨ defaultsToNull = true

theorem TypeValue.isSome_hintName? (t : TypeValue) : t.hintName?.isSome = t.isResolved := by
  unfold hintName? isResolved reason?
  cases t.shape <;> rfl

namespace Report

theorem ofValue?_decided {t : TypeValue} {showsNull : Bool}
    (h : t.nullable = true → showsNull = true) (defaultsToNull : Bool) :
    DeclaredType.ofValue? (if defaultsToNull then (if showsNull then t.orNull else t).orNull
      else if showsNull then t.orNull else t) =
        t.hintName?.map fun name => ⟨name, showsNull || defaultsToNull⟩ := by
  cases showsNull with
  | true => cases defaultsToNull <;> rfl
  | false =>
    have hnullable : t.nullable = false := by simpa using h
    cases defaultsToNull with
    | true => rfl
    | false => simp [DeclaredType.ofValue?, hnullable]

theorem supports_iff {observed : List TypeValue} {t : TypeValue} {rest : List TypeValue}
    (hcounted : counted observed = t :: rest) (hall : rest.all (·.name == t.name) = true)
    (defaultsToNull : Bool) (type : DeclaredType) :
    Supports observed defaultsToNull type ↔
      t.hintName? = some type.name ∧ type.nullable =
        (observed.any (·.showsNull) || defaultsToNull) := by
  have hnull : (type.nullable = true ↔ ShowsNull observed ∨ defaultsToNull = true) ↔
      type.nullable = (observed.any (·.showsNull) || defaultsToNull) := by
    rw [← Decision.any_showsNull, ← Bool.or_eq_true, ← Bool.eq_iff_iff]
  constructor
  · rintro ⟨⟨first, hagreed, hname⟩, hnullable⟩
    obtain ⟨rest', hrest, -⟩ := Decision.agreed_iff.mp hagreed
    rw [hcounted] at hrest
    obtain ⟨rfl, -⟩ := List.cons.inj hrest
    exact ⟨hname, hnull.mp hnullable⟩
  · rintro ⟨hname, hnullable⟩
    refine ⟨⟨t, Decision.agreed_iff.mpr ⟨rest, hcounted, hall, ?_⟩, hname⟩, hnull.mpr hnullable⟩
    rw [← t.isSome_hintName?, hname]
    rfl

/-- What is declared follows from the observations by the rule of agreement. -/
theorem instruction?_outcome? (r : Registry) (m : Method) (target : Target) (defaultsToNull : Bool)
    (observed : List TypeValue) (i : Instruction) :
    (outcome? m target defaultsToNull (.ofObservations r false observed)).bind (·.instruction?) =
        some i ↔
      i.className = m.className ∧ i.function = m.name ∧ i.target = target ∧
        Supports observed defaultsToNull i.type := by
  rw [Decision.ofObservations_eq]
  cases hcounted : counted observed with
  | nil =>
    simp only [outcome?, Option.bind_none, reduceCtorEq, false_iff]
    rintro ⟨-, -, -, ⟨first, hagreed, -⟩, -⟩
    obtain ⟨rest, hrest, -⟩ := Decision.agreed_iff.mp hagreed
    rw [hcounted] at hrest
    cases hrest
  | cons t rest =>
    simp only
    split
    · next hall =>
      have hnull : t.nullable = true → observed.any (·.showsNull) = true := fun h =>
        Decision.any_showsNull.mpr (.inr ⟨t, by rw [hcounted]; exact List.mem_cons_self, h⟩)
      rw [supports_iff hcounted hall]
      simp only [outcome?, Option.bind_some, Outcome.instruction?, ofValue?_decided hnull]
      obtain ⟨className, function, itarget, ⟨name, nullable⟩⟩ := i
      cases t.hintName? with
      | none => simp
      | some hint => simp [eq_comm]
    · next hall =>
      have hnone : Outcome.instruction? ⟨m.className, m.name, target, .unresolvedWith .inconsistent
          ("|".intercalate (Decision.distinct observed).keys),
          (Decision.distinct observed).keys⟩ = none := rfl
      rw [outcome?, Option.bind_some, hnone]
      simp only [reduceCtorEq, false_iff]
      rintro ⟨-, -, -, ⟨first, hagreed, -⟩, -⟩
      obtain ⟨rest', hrest, hall', -⟩ := Decision.agreed_iff.mp hagreed
      rw [hcounted] at hrest
      obtain ⟨rfl, rfl⟩ := List.cons.inj hrest
      exact hall hall'

theorem conflicting_outcome? (r : Registry) (m : Method) (target : Target) (defaultsToNull : Bool)
    (observed : List TypeValue) :
    (outcome? m target defaultsToNull (.ofObservations r false observed)).any
      (!·.conflicting.isEmpty) = true ↔ Disagree observed := by
  rw [Decision.ofObservations_eq]
  cases hcounted : counted observed with
  | nil =>
    have hno : ¬Disagree observed := by
      rintro ⟨t, ht, -⟩
      rw [hcounted] at ht
      cases ht
    simp [outcome?, hno]
  | cons t rest =>
    simp only
    split
    · next hall =>
      have hno := (Decision.all_name_iff hcounted).mp hall
      simp [outcome?, hno]
    · next hall =>
      have hdisagree : Disagree observed := by
        by_contra hno
        exact hall ((Decision.all_name_iff hcounted).mpr hno)
      simp [outcome?, Decision.isEmpty_keys_distinct hcounted, hdisagree]

theorem isInconsistent_outcome? {r : Registry} {m : Method} {target : Target}
    {defaultsToNull : Bool} {observed : List TypeValue}
    (h : ∀ t ∈ observed, t.reason? ≠ some .inconsistent) {o : Outcome}
    (ho : outcome? m target defaultsToNull (.ofObservations r false observed) = some o) :
    o.isInconsistent = !o.conflicting.isEmpty := by
  rw [Decision.ofObservations_eq] at ho
  cases hcounted : counted observed with
  | nil =>
    rw [hcounted] at ho
    cases ho
  | cons t rest =>
    have ht : t ∈ observed := by
      have : t ∈ counted observed := hcounted ▸ List.mem_cons_self
      exact List.mem_of_mem_filter this
    rw [hcounted] at ho
    simp only at ho
    split at ho
    · cases ho
      have hvalue : ∀ a b : Bool, (if a then (if b then t.orNull else t).orNull
          else if b then t.orNull else t).reason? = t.reason? := by
        intro a b
        cases a <;> cases b <;> rfl
      rw [Outcome.isInconsistent, hvalue]
      simp [h t ht]
    · cases ho
      rw [Decision.isEmpty_keys_distinct hcounted]
      rfl

end Report
end SignatureInference
