import SignatureInference.AnalysisError
import SignatureInference.Index
import SignatureInference.Placement
import SignatureInference.Text.Position

/-! # The editor

Carries out instructions one after another, each on the source as the earlier ones left it. In a dry
run no file is written, and the edited sources are kept beside the files.
-/
namespace SignatureInference

inductive EditOutcome where
  /-- The file, the line of the insertion, and the source before and after it. -/
  | applied (path : Path) (line : Nat) (before after : String)
  | skipped (reason : Refusal)
  deriving DecidableEq, Repr

/-- Sources by the places of their files, each with the path it was first known by. -/
abbrev Overlay := SortedMap (List Component) (Path × String)

namespace Overlay

def source? (o : Overlay) (p : Path) : Option String := (o.get? p.components).map (·.2)

def set (o : Overlay) (p : Path) (source : String) : Overlay :=
  o.alter p.components fun known => ((known.map (·.1)).getD p, source)

end Overlay

structure Editor where
  index : Index
  dryRun : Bool
  files : FileTree
  /-- The edited sources that are not written. -/
  overlay : Overlay := ∅
  deriving DecidableEq, Repr

namespace Editor

/-- The source of a file with all edits so far. -/
def source (ed : Editor) (p : Path) : Except AnalysisError String :=
  match ed.overlay.source? p with
  | some s => .ok s
  | none => (ed.files.readText p).mapError .file

def store (ed : Editor) (p : Path) (source : String) : Except AnalysisError Editor :=
  if ed.dryRun then .ok { ed with overlay := ed.overlay.set p source }
  else do
    let files ← (ed.files.write p (.text source)).mapError .file
    return { ed with files, overlay := ed.overlay.erase p.components }

/-- The only file that declares a class. -/
def fileOf (ed : Editor) (c : ClassName) : Except Refusal Path :=
  match ed.index.classFiles c.namespaceName c.shortName with
  | [p] => .ok p
  | [] => .error .noFile
  | _ => .error .severalFiles

def apply (ed : Editor) (i : Instruction) : Except AnalysisError (Editor × EditOutcome) :=
  match ed.fileOf i.className with
  | .error r => .ok (ed, .skipped r)
  | .ok path => do
    let before ← ed.source path
    match ← (Placement.locate before i).mapError .scan with
    | .error r => return (ed, .skipped r)
    | .ok edit =>
      let line := (Text.positionOf before.toList edit.start).line
      let after ← (Edit.applyAll before [edit]).mapError .edit
      return (← ed.store path after, .applied path line before after)

end Editor
end SignatureInference
