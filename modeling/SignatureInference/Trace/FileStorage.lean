import SignatureInference.FileTree
import SignatureInference.Text.Blank
import SignatureInference.Text.Lines
import SignatureInference.Trace.Call

/-! # Records in files

The entries and the returns are kept in one file each, a record a line. New records are collected
and written in batches; a reader sees those that are not written yet after those in the files.
-/
namespace SignatureInference.Trace

inductive StorageError where
  | file (e : FileError)
  /-- A line is no record. -/
  | malformed (path : Path) (line : Nat)
  deriving DecidableEq, Repr

def StorageError.message : StorageError → String
  | file e => "I/O error: " ++ e.message
  | malformed path line => s!"Malformed record in {path.text}:{line}"

/-- The lines of a file, each one either a text or, if it is none, the error of reading it. -/
def contentLines (contents : Contents) : List (Except FileError (List Char)) :=
  (Text.byteLines contents.bytes).map fun line =>
    match Text.decode? line with
    | some text => .ok text
    | none => .error .notText

/-- Reads records off lines that are counted from `number`. Blank lines hold no record. -/
def readRecords {α : Type} (ofJson? : Json → Option α) (path : Path) (number : Nat) :
    List (Except FileError (List Char)) → Except StorageError (List α)
  | [] => .ok []
  | .error e :: _ => .error (.file e)
  | .ok line :: lines =>
    if (Text.trim line).isEmpty then readRecords ofJson? path (number + 1) lines
    else
      match (Json.read? line).bind ofJson? with
      | none => .error (.malformed path number)
      | some a => do
        let rest ← readRecords ofJson? path (number + 1) lines
        return a :: rest

/-- The records of a file; a missing file has none. -/
def readRecordFile {α : Type} (ofJson? : Json → Option α) (t : FileTree) (path : Path) :
    Except StorageError (List α) :=
  match t.read path with
  | .ok contents => readRecords ofJson? path 1 (contentLines contents)
  | .error .missing => .ok []
  | .error e => .error (.file e)

def appendRecords (t : FileTree) (path : Path) (records : List Json) :
    Except StorageError FileTree :=
  if records.isEmpty then .ok t
  else (t.append path (String.join (records.map lineOf))).mapError .file

/-- A directory with stored records, and the records that are not written yet. -/
structure FileStorage where
  directory : Path
  pendingEntries : Array Entry := #[]
  pendingReturns : Array Return := #[]
  deriving DecidableEq, Repr

namespace FileStorage

def batchSize : Nat := 1000

def entriesPath (s : FileStorage) : Path := s.directory.join "entries.jsonl"

def returnsPath (s : FileStorage) : Path := s.directory.join "returns.jsonl"

def removeIfThere (t : FileTree) (path : Path) : Except StorageError FileTree :=
  match t.remove path with
  | .ok t => .ok t
  | .error .missing => .ok t
  | .error e => .error (.file e)

def clear (t : FileTree) (s : FileStorage) : Except StorageError (FileTree × FileStorage) := do
  let t ← removeIfThere t s.entriesPath
  let t ← removeIfThere t s.returnsPath
  return (t, { directory := s.directory })

/-- Makes a storage without records, dropping those that are in the directory. -/
def create (t : FileTree) (directory : Path) : Except StorageError (FileTree × FileStorage) := do
  let t ← (t.makeDirectories directory).mapError .file
  clear t { directory }

def flushEntries (t : FileTree) (s : FileStorage) :
    Except StorageError (FileTree × FileStorage) := do
  let t ← appendRecords t s.entriesPath (s.pendingEntries.toList.map Entry.json)
  return (t, { s with pendingEntries := #[] })

def flushReturns (t : FileTree) (s : FileStorage) :
    Except StorageError (FileTree × FileStorage) := do
  let t ← appendRecords t s.returnsPath (s.pendingReturns.toList.map Return.json)
  return (t, { s with pendingReturns := #[] })

def append (t : FileTree) (s : FileStorage) :
    Record → Except StorageError (FileTree × FileStorage)
  | .entry e =>
    let s := { s with pendingEntries := s.pendingEntries.push e }
    if batchSize ≤ s.pendingEntries.size then flushEntries t s else .ok (t, s)
  | .result r =>
    let s := { s with pendingReturns := s.pendingReturns.push r }
    if batchSize ≤ s.pendingReturns.size then flushReturns t s else .ok (t, s)

def finish (t : FileTree) (s : FileStorage) : Except StorageError (FileTree × FileStorage) := do
  let (t, s) ← flushEntries t s
  flushReturns t s

/-- The first of each run of entries of the same call. -/
def firstOfRuns : List Entry → List Entry
  | [] => []
  | e :: es =>
    match firstOfRuns es with
    | [] => [e]
    | f :: fs => if f.call = e.call then e :: fs else e :: f :: fs

def calls (t : FileTree) (s : FileStorage) : Except StorageError (List Call) := do
  let returns ← readRecordFile Return.ofJson? t s.returnsPath
  let entries ← readRecordFile Entry.ofJson? t s.entriesPath
  let returns := returns ++ s.pendingReturns.toList
  let entries := (entries ++ s.pendingEntries.toList).mergeSort fun a b => a.call ≤ b.call
  return (firstOfRuns entries).map fun e =>
    Call.of e ((returns.find? (·.call = e.call)).map (·.value))

end FileStorage
end SignatureInference.Trace
