import SignatureInference.AnalysisError
import SignatureInference.Editor
import SignatureInference.Report
import SignatureInference.Trace.Reading

/-! # The log

What a run tells in its log, line by line. Steps that fail keep what they have told before.
-/
namespace SignatureInference

/-- Steps that write to the log and may fail. -/
abbrev Logged := ExceptT AnalysisError (StateM (Array String))

namespace Log

/-- A title between two lines of the given character. -/
def titled (rule : Char) (width : Nat) (title : String) : List String :=
  let line := String.ofList (List.replicate width rule)
  [line, title, line]

def sectionHead (title : String) : List String := titled '=' 60 title

def partHead (title : String) : List String := titled '-' 40 title

def warning (text : String) : String := "WARNING: " ++ text

def instruction (i : Instruction) : String := "INSTRUCTION: " ++ i.display

def outcome (o : Outcome) : List String :=
  if !o.conflicting.isEmpty then
    let place := o.className.text ++ "::" ++ o.function ++ " " ++ o.target.display
    let names := ", ".intercalate o.conflicting
    [warning s!"{place}: inconsistent types observed [{names}], not annotating"]
  else o.instruction?.toList.map instruction

def indexed (index : Index) : String :=
  s!"{index.files} files, {index.classes.size} classes, {index.functions.size} functions"

/-- The lines for what became of an instruction. -/
def edited (i : Instruction) : EditOutcome → List String
  | .applied path line _ _ => [instruction i, s!"APPLIED: {i.display} at {path.text}:{line}"]
  | .skipped reason => [instruction i, s!"SKIPPED: {i.display} - {reason.message}"]

def decisions (report : Report) : List String :=
  report.outcomes.flatMap outcome ++ sectionHead "DECISION COMPLETE" ++
    [s!"Functions examined: {report.methods}",
     s!"Instructions emitted: {report.instructions.length}",
     s!"Inconsistent outcomes: {report.conflicts}"]

def traceRead (path : Path) (stats : Trace.Stats) : List String :=
  sectionHead "TRACE PARSED" ++
    [s!"Trace file: {path.text}",
     s!"Lines read: {stats.lines}",
     s!"Entry records: {stats.entriesSeen}",
     s!"Entries retained: {stats.entriesRetained}",
     s!"Returns retained: {stats.returnsRetained}",
     s!"Test doubles detected: {stats.doublesDetected}"]

def tell (lines : List String) : Logged Unit := modify fun (log : Array String) => log ++ lines

/-- A step that may fail by itself. -/
def attempt {ε α : Type} (asError : ε → AnalysisError) : Except ε α → Logged α
  | .ok a => pure a
  | .error e => throw (asError e)

end Log
end SignatureInference
