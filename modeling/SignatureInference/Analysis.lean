import SignatureInference.DocEvidence
import SignatureInference.Log
import SignatureInference.Trace.Evidence

/-! # Analyses

An analysis collects the declarations of the sources and then, if wanted, the evidence of their doc
comments and of a trace.
-/
namespace SignatureInference

def AnalysisError.ofStorage : Trace.StorageError → AnalysisError
  | .file e => .file e
  | .malformed path line => .malformedRecord path line

structure Settings where
  roots : List Path
  filter : PathFilter := ⟨[]⟩
  /-- Whether doc comments count. -/
  useDocs : Bool := true
  trace : Option Path := none
  storage : Trace.StorageKind := .memory
  deriving DecidableEq, Repr

/-- Steps that change a registry, write to the log and may fail. What was changed before a failure
stays changed. -/
abbrev Collecting := ExceptT AnalysisError (StateT Registry (StateM (Array String)))

namespace Collecting

/-- A step that leaves the registry alone. -/
def ofLogged {α : Type} (x : Logged α) : Collecting α := ExceptT.mk (StateT.lift x.run)

instance (priority := low) : MonadLift Logged Collecting := ⟨ofLogged⟩

def ofMerging {α : Type} (x : ExceptT Trace.StorageError (StateM Registry) α) :
    Collecting α := fun r log =>
  let (result, r) := x.run.run r
  ((result.mapError .ofStorage, r), log)

/-- The registry that steps make of one. -/
def collect (x : Collecting Unit) (r : Registry) : Logged Registry := fun log =>
  let ((result, r), log) := ((x.run).run r).run log
  (result.map fun _ => r, log)

end Collecting

namespace Analysis

/-- Collects the declarations of the sources. Files that cannot be read are passed over. -/
def addSources (files : FileTree) (settings : Settings) : Collecting Unit := do
  let paths := settings.filter.collect files settings.roots
  Log.tell [s!"Parsing {paths.length} source files"]
  paths.forM fun path =>
    match files.readText path with
    | .ok source => do
      let d ← Log.attempt .imports (Php.declarations path source)
      modify d.addTo
    | .error e => Log.tell [Log.warning (path.text ++ ": " ++ (AnalysisError.file e).message)]

def addDocs (index : Index) : Collecting Unit := do
  let r ← get
  Log.tell [s!"Doc comments typed {(DocEvidence.all r index).length} methods"]
  set (DocEvidence.addTo r index)

/-- Reads a trace into a new storage, which lies in `place`. -/
def readTrace (files place : FileTree) (index : Index) (settings : Settings) (path : Path) :
    Logged (FileTree × Trace.Storage) := do
  let (place, storage) ← Log.attempt .ofStorage (Trace.Storage.create place settings.storage)
  Log.tell [s!"Reading {path.text} into {storage.name} storage"]
  if !files.isFile path then throw (.missingTrace path)
  let contents ← Log.attempt .file (files.read path)
  let intake ← Log.attempt .ofStorage
    (storage.readTrace index settings.filter place {} contents.bytes)
  Log.tell (Log.traceRead path intake.reading.stats)
  return (intake.tree, intake.storage)

def addTrace (files place : FileTree) (index : Index) (settings : Settings) (path : Path) :
    Collecting Unit := do
  let (place, storage) ← readTrace files place index settings path
  let merged ← .ofMerging (storage.merge place)
  Log.tell [s!"Merged {merged} traced calls"]

/-- One stage of an analysis with its lines in the log. -/
def stage (name : String) (add : Collecting Unit) : Collecting Unit := do
  Log.tell (Log.partHead ("ANALYZER: " ++ name))
  add
  let r ← get
  Log.tell [s!"[{name}] collection now holds {r.classes.size} classes, {r.methods.size} functions"]

/-- The stages of an analysis. A storage that keeps files lies in `place`. -/
def stages (files place : FileTree) (index : Index) (settings : Settings) : Collecting Unit := do
  stage "source" (addSources files settings)
  if settings.useDocs then stage "docblock" (addDocs index)
  match settings.trace with
  | some path => stage "trace" (addTrace files place index settings path)
  | none => return

def run (files place : FileTree) (index : Index) (settings : Settings) : Logged Registry := do
  Log.tell (Log.sectionHead "ANALYSIS")
  (stages files place index settings).collect {}

def decide (r : Registry) (widen : Bool) : Logged Report := do
  let report := Report.ofRegistry r widen
  Log.tell (Log.decisions report)
  return report

end Analysis
end SignatureInference
