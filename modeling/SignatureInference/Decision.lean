import SignatureInference.Instruction
import SignatureInference.Registry.Ancestors

/-! # Decisions

A type is declared only where all observations agree on it. An observed null makes it nullable, a
doc comment without a usable type says nothing, and any other disagreement leaves the place as it
is, unless conflicting classes may be widened to the lowest class above all of them.
-/
namespace SignatureInference

/-- What a set of observations amounts to. -/
inductive Decision where
  /-- Nothing usable was observed. -/
  | nothing
  | decided (type : TypeValue)
  /-- Observations conflict; their type names, sorted. -/
  | inconsistent (names : List String)
  deriving DecidableEq, Repr

namespace TypeValue

/-- Whether an observation names a type that the others have to agree with. -/
def takesPart (t : TypeValue) : Bool :=
  t.reason? != some .none && t.reason? != some .docComment

def showsNull (t : TypeValue) : Bool :=
  t.reason? == some .none || (t.takesPart && t.nullable)

end TypeValue

namespace Decision

/-- The first observation of each type name. -/
def distinct (observed : List TypeValue) : SortedMap String TypeValue :=
  (observed.filter (·.takesPart)).foldl (fun m t => m.insertIfNew t.name t) ∅

/-- The type that differing observations are widened to. -/
def widened? (r : Registry) (types : List TypeValue) : Option TypeValue := do
  let classes ← types.mapM (·.className?)
  let type := r.commonAncestor classes
  if type.isResolved then some type else none

/-- Weighs the observations of one place. -/
def ofObservations (r : Registry) (widen : Bool) (observed : List TypeValue) : Decision :=
  let types := distinct observed
  let agreed :=
    match types.values with
    | [] => none
    | [type] => some type
    | several => if widen then widened? r several else none
  if types.isEmpty then nothing
  else
    match agreed with
    | some type => decided (if observed.any (·.showsNull) then type.orNull else type)
    | none => inconsistent types.keys

end Decision
end SignatureInference
