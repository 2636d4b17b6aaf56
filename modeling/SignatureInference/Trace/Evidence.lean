import SignatureInference.Registry
import SignatureInference.Trace.Storage

/-! # Evidence from traces

A traced call of a method is an observation of its argument types and of its result type. Functions
without a class are no targets of inference.
-/
namespace SignatureInference.Trace

def Call.observation? (c : Call) : Option Method := do
  let name ← FunctionName.read? c.entry.function
  if name.className == "" then none
  return {
    className := .ofParts name.namespaceName name.className
    name := name.function
    calls := [c.parameters]
    returns := c.result.toList }

def observations (calls : List Call) : List Method := calls.filterMap Call.observation?

def addTo (calls : List Call) (r : Registry) : Registry :=
  r.observeAll (observations calls)

/-- A registry that takes in calls, and the number of observations so far. -/
structure Merging where
  registry : Registry
  merged : Nat := 0

def Merging.visit (c : Call) : StateM Merging Unit :=
  modify fun s =>
    { registry := addTo [c] s.registry, merged := s.merged + (observations [c]).length }

/-- Adds the evidence of a storage to a registry and gives the number of observations. -/
def Storage.merge (t : FileTree) (s : Storage) :
    ExceptT StorageError (StateM Registry) Nat := fun r =>
  let (result, m) := (s.forEach t Merging.visit).run.run { registry := r }
  (result.map fun _ => m.merged, m.registry)

end SignatureInference.Trace
