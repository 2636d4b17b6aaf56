import SignatureInference.ClassInfo
import SignatureInference.Index
import SignatureInference.Php.Declarations

/-! # Types in doc comments

What the type of a tag means. Its names are read by the imports and the namespace of the class whose
comment has the tag, while `$this`, `self` and `static` mean the class of the method.
-/
namespace SignatureInference.DocType

/-- Types for documentation only, which no declaration can name. -/
def pseudoTypes : List String :=
  ["void", "null", "object", "iterable", "resource", "never", "true", "false", "scalar", "numeric",
   "class-string", "positive-int", "negative-int", "non-empty-string", "array-key"]

/-- Whether a text is a part of a class name. -/
def isSegment (part : List Char) : Bool :=
  part.head?.any (fun c => Text.isAlphabetic c || c == '_') &&
    part.all fun c => Text.isAlphanumeric c || c == '_'

def isClassName (text : List Char) : Bool :=
  (Text.splitWhere (· == '\\') (ClassName.dropLeadingBackslashes text)).all isSegment

def resolveClass (name : List Char) (scope : ClassInfo) (index : Index) : ClassName :=
  match Text.dropHead? ['\\'] name with
  | some rest => .ofText (String.ofList rest)
  | none =>
    match Php.Imports.expand? scope.imports name with
    | some target => .ofText target
    | none =>
      let declared :=
        if name.contains '\\' then none
        else index.findClass? scope.name.namespaceName (String.ofList name)
      declared.getD (.ofText (String.ofList name))

/-- The meaning of a type without blanks around it and without a question mark in front. -/
def resolveBare (text : List Char) (owner scope : ClassInfo) (index : Index) : TypeValue :=
  let lower := Text.lower text
  let base := String.ofList (lower.takeWhile (· != '<'))
  if lower == "mixed".toList || text.contains '|' then
    .unresolvedWith .docCommentUnion (String.ofList text)
  else if Text.endsWith "[]".toList text then .array
  else if ["$this", "self", "static"].contains base then owner.type
  else if ["array", "list", "non-empty-array", "non-empty-list"].contains base then .array
  else if ["callable", "closure", "\\closure"].contains base then .callable
  else
    match Scalar.ofWord? (String.ofList lower) with
    | some kind => .scalar kind
    | none =>
      if pseudoTypes.contains (String.ofList lower) || !isClassName text then
        .unresolvedWith .docComment (String.ofList text)
      else .ofClassText (resolveClass text scope index).text

/-- The meaning of a type, none if there is no type at all. Each question mark in front admits null;
the bound is the number of characters, each step dropping one. -/
def resolveWithin (owner scope : ClassInfo) (index : Index) :
    (steps : Nat) → List Char → Option TypeValue
  | 0, _ => none
  | steps + 1, raw =>
    match Text.trim raw with
    | [] => none
    | '?' :: inner => (resolveWithin owner scope index steps inner).map TypeValue.orNull
    | text => some (resolveBare text owner scope index)

def resolve (text : String) (owner scope : ClassInfo) (index : Index) : Option TypeValue :=
  resolveWithin owner scope index (text.length + 1) text.toList

end SignatureInference.DocType
