import SignatureInference.Editor

/-! # Revisions

A revision carries out a list of instructions and keeps account of it: what became of each
instruction, and for every changed file its contents before the first edit and after the last one.
-/
namespace SignatureInference

abbrev Result := Instruction × EditOutcome

structure FileChange where
  path : Path
  /-- The contents before the first edit. -/
  before : String
  /-- The contents after the last edit. -/
  after : String
  /-- The instructions that were carried out, in order. -/
  instructions : List Instruction
  deriving DecidableEq, Repr

/-- The changed files by their places. -/
abbrev Changes := SortedMap (List Component) FileChange

namespace Changes

/-- Takes down what became of an instruction. -/
def record (c : Changes) : Result → Changes
  | (i, .applied path _ before after) =>
    c.alter path.components fun
      | none => ⟨path, before, after, [i]⟩
      | some known => { known with after, instructions := known.instructions ++ [i] }
  | (_, .skipped _) => c

def ofResults (results : List Result) : Changes := results.foldl record ∅

end Changes

structure Revision where
  editor : Editor
  /-- The instructions that were tried, in order. -/
  results : List Result
  /-- The instruction that failed, after which no other was tried. -/
  failure : Option (Instruction × AnalysisError) := none
  deriving DecidableEq, Repr

namespace Revision

/-- Carries out instructions until one fails. -/
def run (ed : Editor) : List Instruction → Revision
  | [] => ⟨ed, [], none⟩
  | i :: rest =>
    match ed.apply i with
    | .error e => ⟨ed, [], some (i, e)⟩
    | .ok (ed, outcome) =>
      let later := run ed rest
      { later with results := (i, outcome) :: later.results }

def changes (r : Revision) : Changes := .ofResults r.results

/-- The number of instructions that were carried out. -/
def applied (r : Revision) : Nat :=
  r.results.countP fun result =>
    match result.2 with
    | .applied .. => true
    | .skipped _ => false

def skipped (r : Revision) : Nat :=
  r.results.countP fun result =>
    match result.2 with
    | .applied .. => false
    | .skipped _ => true

end Revision
end SignatureInference
