import SignatureInference.Proofs.Decision.Distinct
import SignatureInference.Proofs.DocEvidence
import SignatureInference.Proofs.Trace.Merging

/-! # Evidence that is added twice

The evidence of a trace or of doc comments consists of observations alone. Once it is in a registry,
adding it again enters no class and no method and repeats observations that are there. A decision
keeps the first observation of each type name, so nothing is decided otherwise, whether or not
classes are widened.
-/
namespace SignatureInference

/-! ### Repeated observations -/

namespace Decision

variable {xs ys : List TypeValue}

/-- Observations that repeat earlier ones are not the first of their names. -/
theorem distinct_append_of_subset (h : ys ⊆ xs) : distinct (xs ++ ys) = distinct xs := by
  apply SortedMap.eq_of_get?
  intro k
  rw [get?_distinct, get?_distinct, counted_append, List.find?_append]
  cases hfind : (counted xs).find? (·.name = k) with
  | some t => rfl
  | none =>
    rw [Option.none_or, List.find?_eq_none]
    intro t ht
    exact List.find?_eq_none.mp hfind t (List.filter_subset _ h ht)

theorem ofObservations_append_of_subset (r : Registry) (widen : Bool) (h : ys ⊆ xs) :
    ofObservations r widen (xs ++ ys) = ofObservations r widen xs := by
  have hnull : (xs ++ ys).any (·.showsNull) = xs.any (·.showsNull) := by
    rw [Bool.eq_iff_iff, List.any_eq_true, List.any_eq_true]
    constructor
    · rintro ⟨t, ht, hshows⟩
      rcases List.mem_append.mp ht with hold | hnew
      · exact ⟨t, hold, hshows⟩
      · exact ⟨t, h hnew, hshows⟩
    · rintro ⟨t, ht, hshows⟩
      exact ⟨t, List.mem_append_left _ ht, hshows⟩
  rw [ofObservations, distinct_append_of_subset h, hnull]
  rfl

end Decision

/-! ### Registries with the same classes -/

namespace Registry

variable {r s : Registry}

theorem above_congr (h : s.classes = r.classes) : s.above = r.above := by
  funext c
  rw [above, above, class?, class?, h]

theorem walk_congr (h : s.classes = r.classes) (entered pending : List ClassName) :
    s.walk entered pending = r.walk entered pending := by
  fun_induction r.walk entered pending with
  | case1 => rw [walk]
  | case2 entered c pending hc ih => rw [walk, if_pos hc, ih]
  | case3 entered c pending hc ih => rw [walk, if_neg hc, above_congr h, ih]

theorem ancestors_congr (h : s.classes = r.classes) : s.ancestors = r.ancestors :=
  funext fun _ => walk_congr h _ _

theorem commonAncestor_congr (h : s.classes = r.classes) (classes : List ClassName) :
    s.commonAncestor classes = r.commonAncestor classes := by
  have hshared : s.sharedAncestors classes = r.sharedAncestors classes := by
    cases classes with
    | nil => rfl
    | cons c cs => rw [sharedAncestors, sharedAncestors, ancestors_congr h]
  rw [commonAncestor, commonAncestor, hshared, lowest, lowest, ancestors_congr h]

end Registry

theorem Decision.ofObservations_congr {r s : Registry} (h : s.classes = r.classes) (widen : Bool)
    (observed : List TypeValue) :
    ofObservations s widen observed = ofObservations r widen observed := by
  have hwidened : ∀ types, widened? s types = widened? r types := by
    intro types
    simp only [widened?, Registry.commonAncestor_congr h]
  simp only [ofObservations, hwidened]

/-! ### Decisions on repeated evidence -/

namespace Report

open Registry (keyOf)

variable {r s : Registry} {widen : Bool}

theorem methodOutcomes_congr (h : s.classes = r.classes) :
    methodOutcomes s widen = methodOutcomes r widen := by
  funext m
  simp only [methodOutcomes, resultOutcome?, parameterOutcome?, Decision.ofObservations_congr h]

/-- Observations that a method has already do not change what is decided about it. -/
theorem methodOutcomes_observing {m : Method} {given : List Method}
    (hcalls : given.flatMap (·.calls) ⊆ m.calls)
    (hreturns : given.flatMap (·.returns) ⊆ m.returns) :
    methodOutcomes r widen (m.observing given) = methodOutcomes r widen m := by
  have hresult : resultOutcome? r widen (m.observing given) = resultOutcome? r widen m := by
    have hdecision : Decision.ofObservations r widen (m.observing given).returns =
        Decision.ofObservations r widen m.returns :=
      Decision.ofObservations_append_of_subset r widen hreturns
    rw [resultOutcome?, resultOutcome?, hdecision]
    rfl
  have hparameter : ∀ index p, parameterOutcome? r widen (m.observing given) index p =
      parameterOutcome? r widen m index p := by
    intro index p
    have hobserved : (m.observing given).observedAt index =
        m.observedAt index ++ (given.flatMap (·.calls)).filterMap (·[index]?) :=
      List.filterMap_append ..
    have hdecision : Decision.ofObservations r widen ((m.observing given).observedAt index) =
        Decision.ofObservations r widen (m.observedAt index) := by
      rw [hobserved]
      exact Decision.ofObservations_append_of_subset r widen (List.filterMap_subset _ hcalls)
    rw [parameterOutcome?, parameterOutcome?, hdecision]
    rfl
  simp only [methodOutcomes, hresult, hparameter]
  rfl

theorem ofRegistry_congr (hclasses : s.classes = r.classes)
    (hmethods : ∀ k, (s.methods.get? k).map (methodOutcomes r widen) =
      (r.methods.get? k).map (methodOutcomes r widen)) :
    ofRegistry s widen = ofRegistry r widen := by
  have hvalues := SortedMap.map_values_eq _ hmethods
  have hsize : s.methods.size = r.methods.size := by
    simpa [SortedMap.values, SortedMap.size] using congrArg List.length hvalues
  rw [ofRegistry, ofRegistry, methodOutcomes_congr hclasses, List.flatMap_def, List.flatMap_def,
    hvalues, hsize]

/-- Observations that were added to a registry can be added again without changing its report. -/
theorem ofRegistry_observeAll_twice (hbuilt : r.Built) {es : List Method}
    (hbare : ∀ e ∈ es, e.Bare) :
    ofRegistry ((r.observeAll es).observeAll es) widen = ofRegistry (r.observeAll es) widen := by
  have hknown : ∀ e ∈ es, (r.observeAll es).methods.contains (keyOf e) = true :=
    fun e he => Registry.contains_observeAll hbare he
  apply ofRegistry_congr
  · apply Registry.classes_observeAll_known
    intro e he
    exact (hbuilt.observeAll es).class_of_method (hknown e he)
  · intro k
    rw [Registry.get?_observeAll_known hbare hknown, Option.map_map]
    cases hm : (r.observeAll es).methods.get? k with
    | none => rfl
    | some m =>
      rw [Registry.get?_observeAll hbare] at hm
      apply congrArg some
      -- the observations are the last ones that the method got
      by_cases hnone : es.filter (keyOf · = k) = []
      · rw [Function.comp_apply, hnone, Method.observing_nil]
      · rw [if_neg hnone] at hm
        cases hm
        exact methodOutcomes_observing (List.subset_append_right ..) (List.subset_append_right ..)

end Report

/-! ### Doc comments -/

namespace DocEvidence

variable {r s : Registry}

theorem evidence?_congr (hclasses : s.classes = r.classes)
    (hdocs : ∀ c name, (s.method? c name).bind (·.doc) = (r.method? c name).bind (·.doc))
    (index : Index) :
    evidence? s index = evidence? r index := by
  have hclass : s.class? = r.class? := by
    funext c
    rw [Registry.class?, Registry.class?, hclasses]
  have heffective : effectiveDoc? s = effectiveDoc? r := by
    funext m
    simp only [effectiveDoc?, effectiveDoc?.inherited, Registry.ancestors_congr hclasses, hdocs]
  have hresult : resultType? s index = resultType? r index := by
    funext owner doc
    simp only [resultType?, tagScope, hclass]
  have hparameter : parameterType s index = parameterType r index := by
    funext owner doc p
    simp only [parameterType, tagScope, hclass]
  have hobservations : observations s index = observations r index := by
    funext owner m doc
    simp only [observations, hresult, hparameter]
  funext m
  rw [evidence?, evidence?, heffective, hclass, hobservations]

/-- After the evidence of the comments was added, it is what it was before. -/
theorem all_addTo (hbuilt : r.Built) (index : Index) : all (addTo r index) index = all r index := by
  have hevidence : evidence? (addTo r index) index = evidence? r index := by
    apply evidence?_congr (classes_addTo hbuilt)
    intro c name
    rw [Registry.method?, Registry.method?, get?_addTo hbuilt]
    cases r.methods.get? ⟨c, name⟩ <;> rfl
  have hvalues : (addTo r index).methods.values.map (evidence? r index) =
      r.methods.values.map (evidence? r index) := by
    apply SortedMap.map_values_eq
    intro k
    rw [get?_addTo hbuilt]
    cases r.methods.get? k <;> rfl
  have hfilter : ∀ ms : List Method, ms.filterMap (evidence? r index) =
      (ms.map (evidence? r index)).filterMap id := by
    intro ms
    rw [List.filterMap_map]
    rfl
  rw [all, hevidence, hfilter, hvalues, ← hfilter]
  rfl

end DocEvidence

namespace Report

/-- Whatever was added to a registry, merging a storage twice leads to the same report as merging it
once and gives the same number or error again, and adding the evidence of doc comments twice leads
to the same report as adding it once. The types to declare, the outcomes and the numbers of a report
follow from it. -/
theorem ofRegistry_of_repeated_evidence (added : List Registry.Addition) (widen : Bool) :
    let r := Registry.ofAdditions added
    (∀ (t : FileTree) (s : Trace.Storage),
      let once := ((s.merge t).run).run r
      let twice := ((s.merge t).run).run once.2
      twice.1 = once.1 ∧ ofRegistry twice.2 widen = ofRegistry once.2 widen) ∧
    ∀ index : Index,
      ofRegistry (DocEvidence.addTo (DocEvidence.addTo r index) index) widen =
        ofRegistry (DocEvidence.addTo r index) widen := by
  intro r
  have hbuilt : r.Built := ⟨added, rfl⟩
  constructor
  · intro t s
    simp only [Trace.run_merge]
    cases s.calls t with
    | error e => exact ⟨rfl, rfl⟩
    | ok calls =>
      exact ⟨rfl, ofRegistry_observeAll_twice hbuilt fun e he => Trace.bare_of_mem_observations he⟩
  · intro index
    rw [DocEvidence.addTo, DocEvidence.all_addTo hbuilt]
    exact ofRegistry_observeAll_twice hbuilt fun e he => DocEvidence.bare_of_mem_all he

end Report
end SignatureInference
