import SignatureInference.Index
import SignatureInference.PathFilter
import SignatureInference.Trace.Doubles
import SignatureInference.Trace.FunctionName
import SignatureInference.Trace.Storage

/-! # Reading a trace

A trace is a text with a record on each line, its fields separated by tabs, between three lines at
the beginning and two at the end. Calls of functions that the project declares are kept with their
results; all other lines are passed over, except that every entry may declare doubles.
-/
namespace SignatureInference.Trace

structure Stats where
  lines : Nat := 0
  entriesSeen : Nat := 0
  entriesRetained : Nat := 0
  returnsRetained : Nat := 0
  doublesDetected : Nat := 0
  deriving DecidableEq, Repr

structure Reading where
  doubles : Doubles := {}
  /-- The calls whose entries are kept. -/
  retained : SortedSet UInt64 := ∅
  /-- The records that are kept. -/
  records : Array Record := #[]
  stats : Stats := {}
  deriving DecidableEq, Repr

def headerLines : Nat := 3

def footerLines : Nat := 2

/-- The text of a line without carriage returns at its end. -/
def lineText (line : List UInt8) :
    List Char := Text.dropEndWhile (· == '\r') (Text.decodeLossy line)

/-- The lines of a trace as they come in. -/
structure Window where
  /-- The number of lines so far. -/
  lines : Nat := 0
  /-- The last lines, which are held back because the trace may end with them. -/
  held : List (List Char) := []
  deriving DecidableEq, Repr

/-- Takes in a line. A line after the header is held back, and the line comes out that is not one of
the last ones any more. -/
def Window.push (w : Window) (line : List UInt8) : Window × Option (List Char) :=
  if w.lines < headerLines then ({ w with lines := w.lines + 1 }, none)
  else
    let held := w.held ++ [lineText line]
    if footerLines < held.length then (⟨w.lines + 1, held.tail⟩, held.head?)
    else (⟨w.lines + 1, held⟩, none)

def callNumber? (field : List Char) : Option UInt64 :=
  let text := Text.trim field
  let digits := (Text.dropHead? ['+'] text).getD text
  let n := Json.digitsValue digits
  if !digits.isEmpty && digits.all Char.isDigit && n < UInt64.size then some (UInt64.ofNat n)
  else none

namespace Reading

variable (index : Index) (filter : PathFilter)

/-- Whether a name is that of a function whose calls are kept. -/
def isTarget (name : List Char) : Bool :=
  match FunctionName.read? (String.ofList name) with
  | some f =>
    f.kind != .closure && f.namespaceName != "" &&
      (index.functionFile? f.namespaceName f.className f.function).isSome
  | none => false

def readReturn (s : Reading) (call value : List Char) : Reading :=
  match callNumber? call with
  | none => s
  | some call =>
    if s.retained.contains call then
      { s with
        records := s.records.push (.result ⟨call, s.doubles.replace (String.ofList value)⟩)
        stats := { s.stats with returnsRetained := s.stats.returnsRetained + 1 } }
    else s

def readEntry (s : Reading) (call name user file : List Char) (parameters : List (List Char)) :
    Reading :=
  match callNumber? call with
  | none => s
  | some call =>
    let parameters := parameters.map String.ofList
    let doubles := s.doubles.observe parameters
    let stats := { s.stats with
      entriesSeen := s.stats.entriesSeen + 1
      doublesDetected := s.stats.doublesDetected + (doubles.size - s.doubles.size) }
    let file := String.ofList (Text.trim file)
    if Text.trim user == ['1'] && !filter.excludes file && isTarget index name then
      let entry : Entry := {
        call
        function := String.ofList (Text.trim name)
        userDefined := true
        file
        parameters := parameters.map doubles.replace }
      { doubles
        retained := s.retained.insert call ()
        records := s.records.push (.entry entry)
        stats := { stats with entriesRetained := stats.entriesRetained + 1 } }
    else { s with doubles, stats }

/-- Reads a line. A return has six fields, an entry eleven and the arguments. -/
def readLine (s : Reading) (line : List Char) : Reading :=
  match Text.splitWhere (· == '\t') line with
  | [_, call, _, _, _, value] => s.readReturn call value
  | _ :: call :: _ :: _ :: _ :: name :: user :: _ :: file :: _ :: _ :: parameters =>
    s.readEntry index filter call name user file parameters
  | _ => s

/-- Takes in a line, and reads the one that comes out. -/
def takeLine (p : Window × Reading) (line : List UInt8) : Window × Reading :=
  let (w, out) := p.1.push line
  (w, out.elim p.2 (p.2.readLine index filter))

/-- Reads a trace, given the doubles that are known already. -/
def ofBytes (doubles : Doubles) (bytes : List UInt8) : Reading :=
  let (w, s) := (Text.byteLines bytes).foldl (takeLine index filter) ({}, { doubles })
  { s with stats := { s.stats with lines := w.lines } }

end Reading

/-- A storage into which a trace is read, the files it lies in, and what was read. -/
structure Intake where
  tree : FileTree
  storage : Storage
  reading : Reading
  deriving DecidableEq, Repr

def Storage.readTrace (index : Index) (filter : PathFilter) (t : FileTree) (s : Storage)
    (doubles : Doubles) (bytes : List UInt8) : Except StorageError Intake := do
  let reading := Reading.ofBytes index filter doubles bytes
  let (t, s) ← s.appendAll t reading.records.toList
  let (t, s) ← s.finish t
  return ⟨t, s, reading⟩

end SignatureInference.Trace
