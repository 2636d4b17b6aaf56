import SignatureInference.Text.Blank

/-! # Names of traced functions

A trace names a method as `Ns\Class->method` or `Ns\Class::method`, a function as `Ns\function`, and
a closure by any text with `{closure` in it.
-/
namespace SignatureInference.Trace

inductive CallKind where
  /-- On an object. -/
  | method
  /-- On a class. -/
  | static
  | closure
  /-- By its own name. -/
  | function
  deriving DecidableEq, Repr

structure FunctionName where
  /-- The namespace, empty for the global one. -/
  namespaceName : String
  /-- The short name of the class, empty for functions and closures. -/
  className : String
  function : String
  kind : CallKind
  deriving DecidableEq, Repr

namespace FunctionName

def isIdentifier (cs : List Char) : Bool :=
  cs.head?.any Text.isIdentStart && cs.all Text.isIdentPart

/-- Reads a name without its namespace. -/
def readLocal? (space : String) (cs : List Char) : Option FunctionName :=
  let first := cs.takeWhile Text.isIdentPart
  let rest := cs.dropWhile Text.isIdentPart
  let named (kind : CallKind) (method : List Char) : Option FunctionName :=
    if isIdentifier method then some ⟨space, String.ofList first, String.ofList method, kind⟩
    else none
  if !isIdentifier first then none
  else
    match rest with
    | [] => some ⟨space, "", String.ofList first, .function⟩
    | '-' :: '>' :: method => named .method method
    | ':' :: ':' :: method => named .static method
    | _ => none

/-- Reads a name that has no blanks around it and is not that of a closure. -/
def readPlain? (cs : List Char) : Option FunctionName :=
  let segments := Text.splitWhere (· == '\\') ((Text.dropHead? ['\\'] cs).getD cs)
  let space := segments.dropLast
  if space.all isIdentifier then
    readLocal? (String.ofList (List.intercalate ['\\'] space)) (segments.getLast?.getD [])
  else none

def closureMark : List Char := "\x7bclosure".toList

/-- Reads a name; none for a text that is no name. -/
def read? (text : String) : Option FunctionName :=
  let cs := Text.trim text.toList
  match Text.breakOn? closureMark cs with
  | some (before, _) =>
    some ⟨String.ofList (Text.dropEndWhile (· == '\\') before), "", "\x7bclosure\x7d", .closure⟩
  | none => readPlain? cs

end FunctionName
end SignatureInference.Trace
