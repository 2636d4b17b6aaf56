import SignatureInference.Decision

/-! # Reports

The decisions about all places of a project whose types are not declared, in the order of the
methods, the result of a method before its parameters.
-/
namespace SignatureInference

/-- What was decided about one place. -/
structure Outcome where
  className : ClassName
  function : String
  target : Target
  /-- The decided type, or an inconsistency. -/
  value : TypeValue
  /-- The type names behind an inconsistency. -/
  conflicting : List String
  deriving DecidableEq, Repr

namespace Outcome

def isInconsistent (o : Outcome) : Bool := o.value.reason? == some .inconsistent

def instruction? (o : Outcome) : Option Instruction :=
  (DeclaredType.ofValue? o.value).map fun type => ⟨o.className, o.function, o.target, type⟩

end Outcome

/-- The outcomes of a run of decisions, and the number of methods looked at. -/
structure Report where
  outcomes : List Outcome
  methods : Nat
  deriving DecidableEq, Repr

namespace Report

/-- The outcome of a decision. A place where null is the default value admits null. -/
def outcome? (m : Method) (target : Target) (defaultsToNull : Bool) : Decision → Option Outcome
  | .nothing => none
  | .inconsistent names =>
    some ⟨m.className, m.name, target,
      .unresolvedWith .inconsistent ("|".intercalate names), names⟩
  | .decided type =>
    some ⟨m.className, m.name, target, if defaultsToNull then type.orNull else type, []⟩

variable (r : Registry) (widen : Bool)

def resultOutcome? (m : Method) : Option Outcome :=
  if m.hasReturnType || m.forbidsReturnType then none
  else outcome? m .result false (.ofObservations r widen m.returns)

def parameterOutcome? (m : Method) (index : Nat) (p : Parameter) : Option Outcome :=
  if p.typeHint.isSome || p.variadic then none
  else outcome? m (.parameter index) p.defaultIsNull (.ofObservations r widen (m.observedAt index))

def methodOutcomes (m : Method) : List Outcome :=
  (resultOutcome? r widen m).toList ++
    (m.parameters.zipIdx.filterMap fun (p, index) => parameterOutcome? r widen m index p)

def ofRegistry : Report where
  outcomes := r.methods.values.flatMap (methodOutcomes r widen)
  methods := r.methods.size

def instructions (report : Report) : List Instruction := report.outcomes.filterMap (·.instruction?)

/-- The number of places where observations conflict. A type that a single observation calls
inconsistent is an outcome of its own and not counted. -/
def conflicts (report : Report) : Nat := (report.outcomes.filter (!·.conflicting.isEmpty)).length

end Report
end SignatureInference
