import SignatureInference.SortedMap
import SignatureInference.Trace.Call

/-! # Records in memory

The records by the number of their call. The first record of a number is kept.
-/
namespace SignatureInference.Trace

/-- Entries and results by call. -/
structure MemoryStorage where
  entries : SortedMap UInt64 Entry := ∅
  results : SortedMap UInt64 String := ∅
  deriving DecidableEq, Repr

namespace MemoryStorage

def append (s : MemoryStorage) : Record → MemoryStorage
  | .entry e => { s with entries := s.entries.insertIfNew e.call e }
  | .result r => { s with results := s.results.insertIfNew r.call r.value }

def calls (s : MemoryStorage) : List Call :=
  s.entries.values.map fun e => Call.of e (s.results.get? e.call)

end MemoryStorage
end SignatureInference.Trace
