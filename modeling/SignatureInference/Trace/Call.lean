import SignatureInference.Trace.Record
import SignatureInference.Trace.ValueType

/-! # Traced calls -/
namespace SignatureInference.Trace

/-- A call: its entry with the types of the arguments, and the type of the result if it returned. -/
structure Call where
  entry : Entry
  parameters : List TypeValue
  result : Option TypeValue
  deriving DecidableEq, Repr

def Call.of (entry : Entry) (result : Option String) : Call :=
  ⟨entry, entry.parameters.map valueType, result.map valueType⟩

end SignatureInference.Trace
