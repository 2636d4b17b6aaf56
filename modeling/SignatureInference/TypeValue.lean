import SignatureInference.ClassName
import SignatureInference.Text.Lowercase

/-! # Observed types

The type of a parameter or a result as one observation shows it: a scalar, an object of a class, or
nothing usable, with the reason. `array` and `callable` are objects of the global namespace.
-/
namespace SignatureInference

/-- The scalar types that a declaration can name. -/
inductive Scalar where
  | int
  | float
  | string
  | bool
  deriving DecidableEq, Repr

namespace Scalar

def keyword : Scalar → String
  | int => "int"
  | float => "float"
  | string => "string"
  | bool => "bool"

def ofWord? (word : String) : Option Scalar :=
  if word == "int" || word == "integer" then some int
  else if word == "float" || word == "double" then some float
  else if word == "string" then some string
  else if word == "bool" || word == "boolean" then some bool
  else none

end Scalar

/-- Why an observation yields no type. -/
inductive Doubt where
  /-- Nothing is known, as of an observed null. -/
  | none
  /-- Observations disagree. -/
  | inconsistent
  /-- A doc comment has no type, or one that no declaration can name. -/
  | docComment
  /-- A doc comment gives several types at once. -/
  | docCommentUnion
  deriving DecidableEq, Repr

namespace Doubt

def word : Doubt → String
  | none => "none"
  | inconsistent => "inconsistent"
  | docComment => "docblock"
  | docCommentUnion => "docblock_multiple"

end Doubt

/-- A type apart from whether it admits null. -/
inductive Shape where
  | scalar (kind : Scalar)
  | object (namespaceName name : String)
  | unresolved (reason : Doubt) (note : Option String)
  deriving DecidableEq, Repr

structure TypeValue where
  shape : Shape
  nullable : Bool := false
  deriving DecidableEq, Repr

namespace TypeValue

/-- A scalar type that does not admit null. -/
def scalar (kind : Scalar) : TypeValue := ⟨.scalar kind, false⟩

def object (namespaceName name : String) : TypeValue := ⟨.object namespaceName name, false⟩

def ofClass (c : ClassName) : TypeValue := object c.namespaceName c.shortName

def ofClassText (text : String) : TypeValue := ofClass (ClassName.ofText text)

def array : TypeValue := object "" "array"

def callable : TypeValue := object "" "callable"

/-- No usable type, without a note. -/
def unresolved (reason : Doubt) : TypeValue := ⟨.unresolved reason none, false⟩

def unresolvedWith (reason : Doubt) (note : String) : TypeValue :=
  ⟨.unresolved reason (some note), false⟩

/-- The same type, admitting null. -/
def orNull (t : TypeValue) : TypeValue := { t with nullable := true }

def reason? (t : TypeValue) : Option Doubt :=
  match t.shape with
  | .unresolved reason _ => some reason
  | _ => none

def isResolved (t : TypeValue) : Bool := t.reason?.isNone

/-- Whether the type is `array` or `callable`. -/
def isBuiltin (t : TypeValue) : Bool :=
  match t.shape with
  | .object space name => space == "" && (name == "array" || name == "callable")
  | _ => false

def className? (t : TypeValue) : Option ClassName :=
  match t.shape with
  | .object space name => if t.isBuiltin then none else some (.ofParts space name)
  | _ => none

/-- The name that tells types apart, whether or not they admit null. -/
def name (t : TypeValue) : String :=
  match t.shape with
  | .scalar kind => kind.keyword
  | .object space name => if space == "" then name else space ++ "\\" ++ name
  | .unresolved reason _ => "unresolvable(" ++ reason.word ++ ")"

/-- The name to write into a declaration. A class is written with a backslash in front, so that its
meaning depends neither on the namespace of the file nor on its imports. -/
def hintName? (t : TypeValue) : Option String :=
  match t.shape with
  | .scalar kind => some kind.keyword
  | .object _ name => some (if t.isBuiltin then name else "\\" ++ t.name)
  | .unresolved .. => none

def display (t : TypeValue) : String := if t.nullable then "?" ++ t.name else t.name

end TypeValue

structure DeclaredType where
  name : String
  nullable : Bool
  deriving DecidableEq, Repr

namespace DeclaredType

def ofValue? (t : TypeValue) : Option DeclaredType := t.hintName?.map fun name => ⟨name, t.nullable⟩

/-- The text of a declaration. -/
def render (t : DeclaredType) : String := if t.nullable then "?" ++ t.name else t.name

end DeclaredType
end SignatureInference
