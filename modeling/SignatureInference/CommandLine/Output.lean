import SignatureInference.CommandLine.Arguments
import SignatureInference.Diff.Lines
import SignatureInference.Diff.Unified
import SignatureInference.Json.Writer
import SignatureInference.Report
import SignatureInference.Revision

/-! # Output

What a run prints about its decisions and edits: a text for people, a JSON document, or a patch.
-/
namespace SignatureInference.CommandLine

def version : String := "0.1.0"

inductive Format where
  | text
  | json
  | diff
  deriving DecidableEq, Repr

/-- The format with the given name, in any case. -/
def Format.ofName? (name : String) : Option Format :=
  match Text.lowerString name with
  | "text" => some .text
  | "json" => some .json
  | "diff" => some .diff
  | _ => none

def unlines (lines : List String) : String := String.join (lines.map (· ++ "\n"))

structure Summary where
  functions : Nat
  instructions : Nat
  applied : Nat
  skipped : Nat
  inconsistent : Nat
  filesWithChanges : Nat
  deriving DecidableEq, Repr

/-- What a run decided and did. -/
structure Account where
  mode : Mode
  report : Report
  revision : Revision
  deriving DecidableEq, Repr

namespace Account

def summary (a : Account) : Summary where
  functions := a.report.methods
  instructions := a.report.instructions.length
  applied := a.revision.applied
  skipped := a.revision.skipped
  inconsistent := a.report.conflicts
  filesWithChanges := a.revision.changes.size

def conflictLines (a : Account) : List String :=
  (a.report.outcomes.filter (·.isInconsistent)).map fun o =>
    let names := ", ".intercalate o.conflicting
    s!"  ! {o.className.text}::{o.function}() {o.target.display}: {names}"

def skippedLines (a : Account) : List String :=
  a.revision.results.filterMap fun
    | (i, .skipped reason) => some s!"  - {i.display} ({reason.message})"
    | _ => none

def changedLine : Diff.LineChange → String
  | .removed line => "  - " ++ line
  | .added line => "  + " ++ line

def fileLines (mode : Mode) (c : FileChange) : List String :=
  let news :=
    match mode with
    | .fix => [s!"  OK Applied {c.instructions.length} change(s)"]
    | .check =>
      (Diff.changes c.before c.after).map changedLine ++ [""] ++
        c.instructions.map fun i => "  -> " ++ i.display
  [c.path.text] ++ news ++ [""]

def closingLines (a : Account) : List String :=
  let s := a.summary
  ["", "Summary", s!"  Methods analyzed: {s.functions}", s!"  Types decided: {s.instructions}",
    s!"  Files with changes: {s.filesWithChanges}"] ++
    (if s.skipped > 0 then [s!"  Skipped: {s.skipped}"] else []) ++
    (if s.inconsistent > 0 then [s!"  Inconsistent: {s.inconsistent}"] else []) ++
    (if a.mode = .check && s.applied > 0 then ["", "Run with --fix to apply changes"] else [])

/-- An instruction and what became of it. -/
def resultJson (mode : Mode) (r : Result) : Json :=
  let (i, outcome) := r
  let l := i.listing
  let index := l.parameterIndex.toList.map fun n => ("argIndex", Json.ofNat n)
  let place :=
    [("kind", Json.ofString l.kind), ("namespace", .ofString l.namespaceName),
     ("className", .ofString l.className), ("functionName", .ofString l.function)] ++
      index ++ [("typeName", .ofString l.typeName)]
  let news :=
    match outcome with
    | .applied path line _ _ =>
      [("status", Json.ofString (if mode = .fix then "applied" else "pending")),
       ("path", .ofString path.text), ("line", .ofNat line)]
    | .skipped reason => [("status", .ofString "skipped"), ("reason", .ofString reason.message)]
  .ofFields (place ++ news)

def toJson (a : Account) : Json :=
  let s := a.summary
  .ofFields
    [("version", .ofString version),
     ("summary", .ofFields
       [("functions", .ofNat s.functions), ("instructions", .ofNat s.instructions),
        ("applied", .ofNat s.applied), ("skipped", .ofNat s.skipped),
        ("inconsistent", .ofNat s.inconsistent),
        ("files_with_changes", .ofNat s.filesWithChanges)]),
     ("instructions", .array (a.revision.results.map (resultJson a.mode)))]

def output (a : Account) : Format → String
  | .text => unlines (a.revision.changes.values.flatMap (fileLines a.mode) ++ a.closingLines)
  | .json => String.ofList (a.toJson.pretty 0) ++ "\n"
  | .diff => String.join (a.revision.changes.values.map fun c =>
      Diff.unified c.path.text c.before c.after)

end Account
end SignatureInference.CommandLine
