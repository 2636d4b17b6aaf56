import SignatureInference.Proofs.Lists
import SignatureInference.Proofs.Registry
import SignatureInference.Proofs.Report.Decisions
import SignatureInference.Proofs.Text.Lowercase

/-! # What a report declares

A report has at most one outcome for each place whose type is not declared. It declares a type
exactly where the observations agree on a usable one, and counts the places where they disagree.
-/
namespace SignatureInference

/-- The names of methods whose results have no declared type. -/
def Method.unreturning : List String := ["__construct", "__destruct", "__clone"]

theorem Method.forbidsReturnType_iff (m : Method) :
    m.forbidsReturnType = false ↔
      ∀ word ∈ unreturning, Text.sameIgnoringAsciiCase m.name word = false := by
  have hword : ∀ word ∈ unreturning,
      (Text.lowerString m.name == word) = Text.sameIgnoringAsciiCase m.name word := by
    intro word hword
    rw [Bool.eq_iff_iff, beq_iff_eq]
    refine Text.lowerString_eq_iff ?_
    revert word
    decide
  simp only [unreturning, List.forall_mem_cons, List.not_mem_nil, false_implies, implies_true,
    and_true] at hword ⊢
  simp only [forbidsReturnType, hword, Bool.or_eq_false_iff, and_assoc]

/-- The places of a method whose types are not declared, with whether null is the default value and
with the observed types: the result, and each parameter that is not variadic. -/
inductive Method.Undeclared (m : Method) : Target → Bool → List TypeValue → Prop
  | result (hdeclared : m.hasReturnType = false)
      (hname : ∀ word ∈ unreturning, Text.sameIgnoringAsciiCase m.name word = false) :
      m.Undeclared .result false m.returns
  | parameter {index : Nat} {p : Parameter} (hp : m.parameters[index]? = some p)
      (hdeclared : p.typeHint = none) (hvariadic : p.variadic = false) :
      m.Undeclared (.parameter index) p.defaultIsNull (m.calls.filterMap (·[index]?))

def Method.Observes (m : Method) (t : TypeValue) : Prop :=
  t ∈ m.returns ∨ ∃ call ∈ m.calls, t ∈ call

theorem Method.Undeclared.observes {m : Method} {target : Target} {defaultsToNull : Bool}
    {observed : List TypeValue} (h : m.Undeclared target defaultsToNull observed) {t : TypeValue}
    (ht : t ∈ observed) : m.Observes t := by
  cases h with
  | result => exact .inl ht
  | parameter =>
    obtain ⟨call, hcall, hget⟩ := List.mem_filterMap.mp ht
    exact .inr ⟨call, hcall, List.mem_of_getElem? hget⟩

def Outcome.place (o : Outcome) : ClassName × String × Target := (o.className, o.function, o.target)

def Instruction.place (i : Instruction) : ClassName × String × Target :=
  (i.className, i.function, i.target)

namespace Report

variable {r : Registry} {widen : Bool} {m : Method} {o : Outcome}

theorem mem_methodOutcomes :
    o ∈ methodOutcomes r widen m ↔ ∃ target defaultsToNull observed,
      m.Undeclared target defaultsToNull observed ∧
        outcome? m target defaultsToNull (.ofObservations r widen observed) = some o := by
  rw [methodOutcomes, List.mem_append, Option.mem_toList, List.mem_filterMap]
  constructor
  · rintro (h | ⟨⟨p, index⟩, hmem, h⟩)
    · rw [resultOutcome?] at h
      split at h
      · cases h
      · next hopen =>
        simp only [Bool.or_eq_true, not_or, Bool.not_eq_true] at hopen
        exact ⟨_, _, _, .result hopen.1 (m.forbidsReturnType_iff.mp hopen.2), h⟩
    · rw [List.mk_mem_zipIdx_iff_getElem?] at hmem
      simp only [parameterOutcome?] at h
      split at h
      · cases h
      · next hopen =>
        simp only [Bool.or_eq_true, not_or, Bool.not_eq_true, Option.isSome_eq_false_iff,
          Option.isNone_iff_eq_none] at hopen
        exact ⟨_, _, _, .parameter hmem hopen.1 hopen.2, h⟩
  · rintro ⟨target, defaultsToNull, observed, hopen, h⟩
    cases hopen with
    | result hdeclared hname =>
      left
      rw [resultOutcome?, hdeclared, m.forbidsReturnType_iff.mpr hname]
      exact h
    | @parameter index p hp hdeclared hvariadic =>
      right
      refine ⟨(p, index), List.mk_mem_zipIdx_iff_getElem?.mpr hp, ?_⟩
      simp only [parameterOutcome?, hdeclared, hvariadic]
      exact h

theorem place_of_outcome? {target : Target} {defaultsToNull : Bool} {d : Decision}
    (h : outcome? m target defaultsToNull d = some o) :
    o.place = (m.className, m.name, target) := by
  cases d with
  | nothing => cases h
  | inconsistent names => cases h; rfl
  | decided type => cases h; rfl

theorem place_of_mem_methodOutcomes (h : o ∈ methodOutcomes r widen m) :
    o.place = (m.className, m.name, o.target) := by
  obtain ⟨target, defaultsToNull, observed, -, ho⟩ := mem_methodOutcomes.mp h
  have hplace := place_of_outcome? ho
  have htarget : o.target = target := congrArg (·.2.2) hplace
  rw [hplace, htarget]

theorem targets_sublist (r : Registry) (widen : Bool) (m : Method) :
    ((methodOutcomes r widen m).map (·.target)).Sublist
      (.result :: m.parameters.zipIdx.map fun e => .parameter e.2) := by
  rw [methodOutcomes, List.map_append, ← List.singleton_append]
  refine .append ?_ (map_filterMap_sublist (fun e o ho => ?_) _)
  · cases hresult : resultOutcome? r widen m with
    | none => exact List.nil_sublist _
    | some o =>
      rw [resultOutcome?] at hresult
      split at hresult
      · cases hresult
      · have htarget : o.target = .result := congrArg (·.2.2) (place_of_outcome? hresult)
        rw [Option.toList_some, List.map_singleton, htarget]
  · simp only [parameterOutcome?] at ho
    split at ho
    · cases ho
    · exact congrArg (·.2.2) (place_of_outcome? ho)

theorem nodup_targets (r : Registry) (widen : Bool) (m : Method) :
    ((methodOutcomes r widen m).map (·.target)).Nodup := by
  refine (targets_sublist r widen m).nodup (List.nodup_cons.mpr ⟨by simp, ?_⟩)
  have hindices : (m.parameters.zipIdx.map Prod.snd).Nodup := by
    rw [List.zipIdx_map_snd]
    exact List.nodup_range'
  have hparameters := hindices.map (f := Target.parameter) fun a b h => Target.parameter.inj h
  rwa [List.map_map] at hparameters

theorem nodup_places (hr : r.Built) (widen : Bool) :
    ((ofRegistry r widen).outcomes.map Outcome.place).Nodup := by
  rw [ofRegistry, List.map_flatMap, List.nodup_flatMap]
  constructor
  · intro m _
    refine List.Nodup.of_map (·.2.2) ?_
    rw [List.map_map]
    exact nodup_targets r widen m
  · refine (List.pairwise_map.mp hr.nodup_keys).imp fun {a b} hne => ?_
    intro place ha hb
    obtain ⟨o, ho, rfl⟩ := List.mem_map.mp ha
    obtain ⟨o', ho', hplace⟩ := List.mem_map.mp hb
    rw [place_of_mem_methodOutcomes ho, place_of_mem_methodOutcomes ho'] at hplace
    obtain ⟨hclass, hrest⟩ := Prod.mk.inj hplace
    refine hne ?_
    rw [Registry.keyOf, Registry.keyOf, hclass, (Prod.mk.inj hrest).1]

theorem mem_instructions {i : Instruction} :
    i ∈ (ofRegistry r false).instructions ↔ ∃ m ∈ r.methods.values, ∃ defaultsToNull observed,
      m.Undeclared i.target defaultsToNull observed ∧ i.className = m.className ∧
        i.function = m.name ∧ Supports observed defaultsToNull i.type := by
  simp only [instructions, ofRegistry, List.mem_filterMap, List.mem_flatMap]
  constructor
  · rintro ⟨o, ⟨m, hm, ho⟩, hi⟩
    obtain ⟨target, defaultsToNull, observed, hopen, houtcome⟩ := mem_methodOutcomes.mp ho
    have hdeclared := (instruction?_outcome? r m target defaultsToNull observed i).mp (by
      rw [houtcome, Option.bind_some, hi])
    obtain ⟨hclass, hfunction, rfl, hsupports⟩ := hdeclared
    exact ⟨m, hm, defaultsToNull, observed, hopen, hclass, hfunction, hsupports⟩
  · rintro ⟨m, hm, defaultsToNull, observed, hopen, hclass, hfunction, hsupports⟩
    have hdeclared := (instruction?_outcome? r m i.target defaultsToNull observed i).mpr
      ⟨hclass, hfunction, rfl, hsupports⟩
    obtain ⟨o, houtcome, hi⟩ := Option.bind_eq_some_iff.mp hdeclared
    exact ⟨o, ⟨m, hm, mem_methodOutcomes.mpr ⟨_, _, _, hopen, houtcome⟩⟩, hi⟩

theorem place_of_instruction? {i : Instruction} (h : o.instruction? = some i) :
    i.place = o.place := by
  obtain ⟨type, -, rfl⟩ := Option.map_eq_some_iff.mp h
  rfl

theorem isSome_instruction? (o : Outcome) : o.instruction?.isSome = o.value.isResolved := by
  rw [Outcome.instruction?, Option.isSome_map, DeclaredType.ofValue?, Option.isSome_map,
    TypeValue.isSome_hintName?]

/-- The places of conflict are the undeclared ones whose observations disagree. -/
theorem mem_conflicts {c : ClassName} {f : String} {target : Target} :
    (c, f, target) ∈ ((ofRegistry r false).outcomes.filter (!·.conflicting.isEmpty)).map
      Outcome.place ↔
      ∃ m ∈ r.methods.values, c = m.className ∧ f = m.name ∧
        ∃ defaultsToNull observed, m.Undeclared target defaultsToNull observed ∧
        Disagree observed := by
  simp only [List.mem_map, List.mem_filter, ofRegistry, List.mem_flatMap]
  constructor
  · rintro ⟨o, ⟨⟨m, hm, ho⟩, hconflict⟩, hplace⟩
    obtain ⟨target', defaultsToNull, observed, hopen, houtcome⟩ := mem_methodOutcomes.mp ho
    have hdisagree := (conflicting_outcome? r m target' defaultsToNull observed).mp (by
      rw [houtcome]
      exact hconflict)
    rw [place_of_outcome? houtcome] at hplace
    obtain ⟨rfl, hrest⟩ := Prod.mk.inj hplace
    obtain ⟨rfl, rfl⟩ := Prod.mk.inj hrest
    exact ⟨m, hm, rfl, rfl, defaultsToNull, observed, hopen, hdisagree⟩
  · rintro ⟨m, hm, rfl, rfl, defaultsToNull, observed, hopen, hdisagree⟩
    have hany := (conflicting_outcome? r m target defaultsToNull observed).mpr hdisagree
    obtain ⟨o, houtcome, hconflict⟩ := (Option.any_eq_true _ _).mp hany
    exact ⟨o, ⟨⟨m, hm, mem_methodOutcomes.mpr ⟨_, _, _, hopen, houtcome⟩⟩, hconflict⟩,
      place_of_outcome? houtcome⟩

theorem isInconsistent_of_mem
    (hobserved : ∀ m ∈ r.methods.values, ∀ t, m.Observes t → t.reason? ≠ some .inconsistent)
    (h : o ∈ (ofRegistry r false).outcomes) : o.isInconsistent = !o.conflicting.isEmpty := by
  obtain ⟨m, hm, ho⟩ := List.mem_flatMap.mp h
  obtain ⟨target, defaultsToNull, observed, hopen, houtcome⟩ := mem_methodOutcomes.mp ho
  exact isInconsistent_outcome? (fun t ht => hobserved m hm t (hopen.observes ht)) houtcome

/-- A type is declared exactly where all observations agree on it, at most once for each place. The
conflicts are the undeclared places whose observations disagree. -/
theorem declares_agreed_types (hr : r.Built) :
    (∀ i, i ∈ (ofRegistry r false).instructions ↔ ∃ m ∈ r.methods.values, ∃ defaultsToNull observed,
      m.Undeclared i.target defaultsToNull observed ∧ i.className = m.className ∧
        i.function = m.name ∧ Supports observed defaultsToNull i.type) ∧
    ((ofRegistry r false).instructions.map Instruction.place).Nodup ∧
    (ofRegistry r false).methods = r.methods.values.length ∧
    (ofRegistry r false).instructions.length =
      ((ofRegistry r false).outcomes.filter (·.value.isResolved)).length ∧
    (∃ places : List (ClassName × String × Target), places.Nodup ∧
      places.length = (ofRegistry r false).conflicts ∧
      ∀ c f target, (c, f, target) ∈ places ↔ ∃ m ∈ r.methods.values, c = m.className ∧ f = m.name ∧
        ∃ defaultsToNull observed, m.Undeclared target defaultsToNull observed ∧
        Disagree observed) ∧
    ((∀ m ∈ r.methods.values, ∀ t, m.Observes t → t.reason? ≠ some .inconsistent) →
      (ofRegistry r false).conflicts =
        ((ofRegistry r false).outcomes.filter (·.isInconsistent)).length) := by
  have hplaces := nodup_places hr false
  refine ⟨fun i => mem_instructions, ?_, ?_, ?_, ⟨_, ?_, ?_, fun c f target => mem_conflicts⟩, ?_⟩
  · refine List.Sublist.nodup ?_ hplaces
    exact map_filterMap_sublist (fun o i => place_of_instruction?) _
  · exact (List.length_map _).symm
  · rw [instructions, List.length_filterMap_eq_countP, List.countP_eq_length_filter]
    simp only [isSome_instruction?]
  · exact (List.filter_sublist.map _).nodup hplaces
  · rw [List.length_map, conflicts]
  · intro hobserved
    rw [conflicts, List.filter_congr fun o ho => isInconsistent_of_mem hobserved ho]

/-- A method whose calls disagree on the first argument. Only one of them passes the second one,
whose default value is null. -/
def scaledArea : Method where
  className := ⟨"App\\Shape"⟩
  name := "area"
  parameters := [.named "$scale", { name := "unit", default := some " NULL" }]
  calls := [[.scalar .int], [.scalar .float, .object "App" "Unit"]]
  returns := [.unresolved .none, .scalar .int]

def shapes : Registry :=
  (Registry.add {} { name := ⟨"App\\Shape"⟩ } scaledArea).add { name := ⟨"App\\Shape"⟩ }
    { scaledArea with name := "__Construct", calls := [] }

theorem declares_agreed_types_shapes :
    shapes.Built ∧
      ⟨⟨"App\\Shape"⟩, "area", .parameter 1, ⟨"\\App\\Unit", true⟩⟩ ∈
        (ofRegistry shapes false).instructions ∧
      ⟨⟨"App\\Shape"⟩, "__Construct", .result, ⟨"int", true⟩⟩ ∉
        (ofRegistry shapes false).instructions := by
  have hbuilt : shapes.Built := ⟨[.ofMethod _ _, .ofMethod _ _], rfl⟩
  obtain ⟨hiff, -⟩ := declares_agreed_types hbuilt
  refine ⟨hbuilt, (hiff _).mpr ?_, fun h => ?_⟩
  · refine ⟨scaledArea,
      by decide, _, _, .parameter rfl rfl rfl, rfl, rfl, ⟨_, ⟨rfl, rfl, ?_⟩, rfl⟩, ?_⟩
    · decide
    · exact ⟨fun _ => .inr (by decide), fun _ => rfl⟩
  · obtain ⟨m, -, _, _, hopen, -, hname, -⟩ := (hiff _).mp h
    cases hopen with
    | result _ hspecial =>
      have hconstruct := hspecial "__construct" (by decide)
      rw [← hname] at hconstruct
      exact absurd hconstruct (by decide)

end Report
end SignatureInference
