import SignatureInference.Trace.FileStorage
import SignatureInference.Trace.MemoryStorage

/-! # Storages

Records are kept either in memory or in files. Both hand out the same calls: one for each number
among the entries, in increasing order, with the first entry and the first return of that number.
-/
namespace SignatureInference.Trace

/-- Where records are to be kept. -/
inductive StorageKind where
  | memory
  /-- In files of a directory. -/
  | file (directory : Path)
  deriving DecidableEq, Repr

inductive Storage where
  | memory (s : MemoryStorage)
  | file (s : FileStorage)
  deriving DecidableEq, Repr

namespace Storage

def create (t : FileTree) : StorageKind → Except StorageError (FileTree × Storage)
  | .memory => .ok (t, .memory {})
  | .file directory => (FileStorage.create t directory).map fun (t, s) => (t, .file s)

def name : Storage → String
  | memory _ => "memory"
  | file _ => "file"

def append (t : FileTree) (s : Storage) (record : Record) :
    Except StorageError (FileTree × Storage) :=
  match s with
  | memory s => .ok (t, memory (s.append record))
  | file s => (s.append t record).map fun (t, s) => (t, file s)

def appendAll (t : FileTree) (s : Storage) (records : List Record) :
    Except StorageError (FileTree × Storage) :=
  records.foldlM (fun (t, s) record => append t s record) (t, s)

/-- Writes what is not written yet. -/
def finish (t : FileTree) : Storage → Except StorageError (FileTree × Storage)
  | memory s => .ok (t, memory s)
  | file s => (s.finish t).map fun (t, s) => (t, file s)

def clear (t : FileTree) : Storage → Except StorageError (FileTree × Storage)
  | memory _ => .ok (t, memory {})
  | file s => (s.clear t).map fun (t, s) => (t, file s)

/-- The calls in the order of their numbers. -/
def calls (t : FileTree) : Storage → Except StorageError (List Call)
  | memory s => .ok s.calls
  | file s => s.calls t

/-- Hands the calls to a visitor, in the order of their numbers. What the visitor did stays done. -/
def forEach {σ : Type} (t : FileTree) (s : Storage) (visit : Call → StateM σ Unit) :
    ExceptT StorageError (StateM σ) Unit := do
  let calls ← MonadExcept.ofExcept (s.calls t)
  calls.forM fun c => visit c

end Storage
end SignatureInference.Trace
