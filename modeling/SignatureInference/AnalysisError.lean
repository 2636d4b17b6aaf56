import SignatureInference.Edit
import SignatureInference.FileTree
import SignatureInference.Php.Declarations
import SignatureInference.Registry
import SignatureInference.Source.Span

/-! # Errors of an analysis -/
namespace SignatureInference

inductive AnalysisError where
  | unknownMethod (key : MethodKey)
  | missingTrace (path : Path)
  | notScalar (text : String)
  /-- A stored trace record cannot be read. -/
  | malformedRecord (path : Path) (line : Nat)
  | file (e : FileError)
  | edit (e : EditError)
  /-- A source cannot be scanned. -/
  | scan (e : Source.ScanError)
  /-- The imports of a source cannot be read. -/
  | imports (e : Php.ImportError)
  deriving DecidableEq, Repr

/-- The classes of errors that are told apart. -/
inductive ErrorKind where
  | notFound
  | invalidArgument
  | io
  | edit
  /-- The run ends at once and tells nothing. -/
  | abort
  deriving DecidableEq, Repr

namespace AnalysisError

def kind : AnalysisError → ErrorKind
  | unknownMethod _ | missingTrace _ => .notFound
  | notScalar _ | malformedRecord .. => .invalidArgument
  | file _ => .io
  | edit _ => .edit
  | scan _ | imports _ => .abort

def message : AnalysisError → String
  | unknownMethod key => "Not found: " ++ key.display
  | missingTrace path => "Not found: trace file " ++ path.text
  | notScalar text => "Invalid argument: '" ++ text ++ "' is not a scalar type name"
  | malformedRecord path line => s!"Invalid argument: Malformed record in {path.text}:{line}"
  | file e => "I/O error: " ++ e.message
  | edit e => "Failed to apply edit: " ++ e.message
  | scan _ => "A parameter list ends after the text that is searched"
  | imports _ => "An import clause cannot be split"

/-- The wording of the error behind an error. -/
def cause? : AnalysisError → Option String
  | file e => some e.message
  | edit e => some e.message
  | _ => none

/-- The wording of an error, followed by that of the error behind it. -/
def fullMessage (e : AnalysisError) : String := ": ".intercalate (e.message :: e.cause?.toList)

end AnalysisError

def Scalar.ofText (text : String) : Except AnalysisError Scalar :=
  let word := Text.lowerString text
  match ofWord? word with
  | some kind => .ok kind
  | none => .error (.notScalar word)

/-- The entry of a method, which has to be known. -/
def Registry.method (r : Registry) (c : ClassName) (name : String) : Except AnalysisError Method :=
  match r.method? c name with
  | some m => .ok m
  | none => .error (.unknownMethod ⟨c, name⟩)

end SignatureInference
