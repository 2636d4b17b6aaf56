import SignatureInference.Proofs.Registry.Observations
import SignatureInference.Trace.Evidence

/-! # What traced calls show

A call of a method shows the types of its arguments and, if it returned, the type of its result.
Adding calls to a registry puts what they show behind what was observed before, method by method and
in their order. A class that was not known is entered, and nothing is said of it but the names of
its methods.
-/
namespace SignatureInference.Trace

open Registry (keyOf unknown)

/-- The method that was called, unless the function has no class. -/
def Call.method? (c : Call) : Option MethodKey :=
  (FunctionName.read? c.entry.function).bind fun name =>
    if name.className = "" then none
    else some ⟨.ofParts name.namespaceName name.className, name.function⟩

def callsOf (calls : List Call) (k : MethodKey) : List Call := calls.filter (·.method? = some k)

def methodsCalled (calls : List Call) (name : ClassName) : List String :=
  ((calls.filterMap Call.method?).filter (·.className = name)).map (·.name)

/-- What calls make of a registry. Each method that was called has the arguments and the results of
its calls behind those that were observed before, and its class is entered and knows it. All else is
as it was. -/
structure Merged (calls : List Call) (r r' : Registry) : Prop where
  uncalled : ∀ k, callsOf calls k = [] → r'.methods.get? k = r.methods.get? k
  called : ∀ k, callsOf calls k ≠ [] →
    let known := (r.methods.get? k).getD (unknown k)
    r'.methods.get? k = some { known with
      calls := known.calls ++ (callsOf calls k).map (·.parameters)
      returns := known.returns ++ (callsOf calls k).filterMap (·.result) }
  otherClass : ∀ name, methodsCalled calls name = [] → r'.classes.get? name = r.classes.get? name
  classCalled : ∀ name, methodsCalled calls name ≠ [] →
    ∃ c, r'.classes.get? name = some c ∧
      c.Learns ((r.classes.get? name).getD { name }) (methodsCalled calls name)

def Call.shown (c : Call) (k : MethodKey) : Method :=
  { unknown k with calls := [c.parameters], returns := c.result.toList }

theorem observation?_eq (c : Call) : c.observation? = c.method?.map c.shown := by
  rw [Call.observation?, Call.method?]
  cases FunctionName.read? c.entry.function with
  | none => rfl
  | some name =>
    by_cases hname : name.className = ""
    · simp [hname]
    · simp [hname, Call.shown, unknown]

variable {calls : List Call}

theorem observations_cons (c : Call) (calls : List Call) :
    observations (c :: calls) = observations [c] ++ observations calls :=
  List.filterMap_append (l := [c])

theorem map_keyOf_observations (calls : List Call) :
    (observations calls).map keyOf = calls.filterMap Call.method? := by
  rw [observations, List.map_filterMap]
  refine List.filterMap_congr fun c _ => ?_
  rw [observation?_eq]
  cases c.method? <;> rfl

theorem filter_observations (calls : List Call) (k : MethodKey) :
    (observations calls).filter (keyOf · = k) = (callsOf calls k).map (·.shown k) := by
  induction calls with
  | nil => rfl
  | cons c calls ih =>
    have hkey : ∀ l, keyOf (c.shown l) = l := fun _ => rfl
    rw [observations] at ih ⊢
    rw [callsOf] at ih ⊢
    rw [List.filterMap_cons, observation?_eq]
    cases hmethod : c.method? with
    | none => simpa [hmethod] using ih
    | some l =>
      by_cases hl : l = k
      · simpa [hmethod, hl, hkey] using ih
      · simpa [hmethod, hl, hkey] using ih

theorem bare_of_mem_observations {e : Method} (he : e ∈ observations calls) : e.Bare := by
  obtain ⟨c, -, hc⟩ := List.mem_filterMap.mp he
  rw [observation?_eq] at hc
  obtain ⟨k, -, rfl⟩ := Option.map_eq_some_iff.mp hc
  exact ⟨rfl, rfl, rfl⟩

theorem length_observations (calls : List Call) :
    (observations calls).length = calls.countP (·.method?.isSome) := by
  rw [← List.length_filterMap_eq_countP, ← map_keyOf_observations, List.length_map]

theorem map_name_observations (calls : List Call) (name : ClassName) :
    ((observations calls).filter (·.className = name)).map (·.name) = methodsCalled calls name := by
  rw [methodsCalled, ← map_keyOf_observations, List.filter_map, List.map_map]
  rfl

/-- All calls are merged, and nothing else is. -/
theorem merged_addTo (calls : List Call) (r : Registry) : Merged calls r (addTo calls r) where
  uncalled k hnone := by
    rw [addTo, Registry.get?_observeAll (fun _ => bare_of_mem_observations), filter_observations,
      hnone, List.map_nil, if_pos rfl]
  called k hsome := by
    have hne : (callsOf calls k).map (·.shown k) ≠ [] := by simpa using hsome
    rw [addTo, Registry.get?_observeAll (fun _ => bare_of_mem_observations), filter_observations,
      if_neg hne, Method.observing, List.flatMap_map, List.flatMap_map,
      List.filterMap_eq_flatMap_toList, List.map_eq_flatMap]
    rfl
  otherClass name hnone := by
    rw [← map_name_observations, List.map_eq_nil_iff, List.filter_eq_nil_iff] at hnone
    exact Registry.class_observeAll_of_unobserved fun e he heq => hnone e he (decide_eq_true heq)
  classCalled name hsome := by
    rw [← map_name_observations] at hsome ⊢
    obtain ⟨e, he⟩ := List.exists_mem_of_ne_nil _ (mt List.map_eq_nil_iff.mpr hsome)
    obtain ⟨hmem, hname⟩ := List.mem_filter.mp he
    exact Registry.exists_class_observeAll ⟨e, hmem, of_decide_eq_true hname⟩

end SignatureInference.Trace
