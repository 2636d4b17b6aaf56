import SignatureInference.DocComment
import SignatureInference.TypeValue

/-! # Methods

A method with its formal parameters and everything observed about it: the argument types of calls
and the types of results.
-/
namespace SignatureInference

structure Parameter where
  /-- The name without its dollar sign. -/
  name : String
  /-- The declared type, as written. -/
  typeHint : Option String := none
  /-- The default value, as written. -/
  default : Option String := none
  variadic : Bool := false
  deriving DecidableEq, Repr

namespace Parameter

/-- The parameter of a variable. -/
def named (variableText : String) : Parameter where
  name := Text.onString (·.dropWhile (· == '$')) variableText

def defaultIsNull (p : Parameter) : Bool :=
  p.default.any fun d => Text.sameIgnoringAsciiCase (Text.onString Text.trim d) "null"

end Parameter

structure Method where
  className : ClassName
  name : String
  parameters : List Parameter := []
  /-- Whether the source declares the type of the result. -/
  hasReturnType : Bool := false
  /-- The argument types of each observed call. A call that leaves out optional arguments is
  shorter. -/
  calls : List (List TypeValue) := []
  returns : List TypeValue := []
  doc : Option DocComment := none
  deriving DecidableEq, Repr

namespace Method

def qualifiedName (m : Method) : String := m.className.text ++ "::" ++ m.name

def forbidsReturnType (m : Method) : Bool :=
  let name := Text.lowerString m.name
  name == "__construct" || name == "__destruct" || name == "__clone"

/-- The types observed for one parameter; calls that did not pass it say nothing. -/
def observedAt (m : Method) (index : Nat) : List TypeValue := m.calls.filterMap (·[index]?)

/-- Adds the observations of `other`, and whatever else it knows and `m` does not. -/
def merge (m other : Method) : Method :=
  { m with
    parameters := if m.parameters.isEmpty then other.parameters else m.parameters
    hasReturnType := m.hasReturnType || other.hasReturnType
    doc := m.doc.or other.doc
    calls := m.calls ++ other.calls
    returns := m.returns ++ other.returns }

end Method
end SignatureInference
