import SignatureInference.TypeValue

/-! # Instructions

An instruction says which type to declare at which place of a method.
-/
namespace SignatureInference

/-- The places of a method that can have a type. -/
inductive Target where
  | result
  | parameter (index : Nat)
  deriving DecidableEq, Repr

def Target.display : Target → String
  | result => "return"
  | parameter index => s!"parameter #{index}"

structure Instruction where
  className : ClassName
  function : String
  target : Target
  type : DeclaredType
  deriving DecidableEq, Repr

namespace Instruction

/-- The word for what an instruction declares. -/
def kind (i : Instruction) : String :=
  match i.target with
  | .result => "return"
  | .parameter _ => "hint"

def parameterIndex? (i : Instruction) : Option Nat :=
  match i.target with
  | .result => none
  | .parameter index => some index

/-- An instruction as reports list it, with the class in two parts. -/
structure Listing where
  kind : String
  namespaceName : String
  className : String
  function : String
  parameterIndex : Option Nat
  typeName : String
  deriving DecidableEq, Repr

def listing (i : Instruction) : Listing where
  kind := i.kind
  namespaceName := i.className.namespaceName
  className := i.className.shortName
  function := i.function
  parameterIndex := i.parameterIndex?
  typeName := i.type.render

def display (i : Instruction) : String :=
  let place := i.className.text ++ "::" ++ i.function ++ "()"
  match i.target with
  | .result => s!"{place} returns {i.type.render}"
  | .parameter index => s!"{place} parameter #{index} is {i.type.render}"

end Instruction
end SignatureInference
