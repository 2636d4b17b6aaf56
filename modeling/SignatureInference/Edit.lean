import SignatureInference.Text.Basic

/-! # Edits

An edit replaces a range of bytes of a text. Edits are given for one and the same text and take
effect together: they are made from the last to the first, so that no edit moves the place of
another one. Insertions at one offset come out in the order in which they are given.
-/
namespace SignatureInference

/-- The replacement of the text between two byte offsets. -/
structure Edit where
  start : Nat
  stop : Nat
  replacement : String
  deriving DecidableEq, Repr

inductive EditError where
  /-- The range of the edit reaches into the edit that follows it. -/
  | overlapping (start : Nat)
  | outOfBounds (start stop length : Nat)
  /-- The range begins or ends inside a character. -/
  | notBoundary (start stop : Nat)
  deriving DecidableEq, Repr

namespace EditError

def message : EditError → String
  | overlapping start => s!"Overlapping edits detected at offset {start}"
  | outOfBounds start stop length =>
    s!"Edit range {start}..{stop} out of bounds for source length {length}"
  | notBoundary start stop =>
    s!"Edit range {start}..{stop} does not fall on a character boundary"

end EditError

namespace Edit

def insertion (offset : Nat) (text : String) : Edit := ⟨offset, offset, text⟩

/-- Edits in the order of their places, the last place first. -/
def fromTheEnd (edits : List Edit) : List Edit :=
  (edits.mergeSort fun a b => a.start ≤ b.start).reverse

/-- Checks edits that are ordered from the last to the first; `next` is where the one before
starts. -/
def check (source : List Char) (next : Option Nat) : List Edit → Except EditError Unit
  | [] => .ok ()
  | e :: es =>
    if e.stop < e.start || Text.byteLength source < e.stop then
      .error (.outOfBounds e.start e.stop (Text.byteLength source))
    else if !(Text.isBoundary source e.start && Text.isBoundary source e.stop) then
      .error (.notBoundary e.start e.stop)
    else if next.any (· < e.stop) then .error (.overlapping e.start)
    else check source (some e.start) es

def splice (source : List Char) (e : Edit) : List Char :=
  Text.takeBytes e.start source ++ e.replacement.toList ++ Text.dropBytes e.stop source

/-- Makes all edits, or none if one of them is faulty or two of them overlap. -/
def applyAll (source : String) (edits : List Edit) : Except EditError String := do
  let ordered := fromTheEnd edits
  check source.toList none ordered
  return String.ofList (ordered.foldl splice source.toList)

end Edit
end SignatureInference
