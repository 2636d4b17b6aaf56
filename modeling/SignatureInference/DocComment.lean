import SignatureInference.ClassName
import SignatureInference.Text.Lines
import SignatureInference.Text.Lowercase

/-! # Doc comments

The tags of a method's doc comment that give types: one tag per parameter and one for the result.
The types stay as they are written. A comment can also ask for the tags that its method has in the
classes above; a tag taken from there remembers the class whose comment it was written in.
-/
namespace SignatureInference

structure ParamTag where
  /-- The parameter without its dollar sign. -/
  name : String
  typeText : String
  /-- The class whose comment the tag was taken from; its names are to be read there. -/
  origin : Option ClassName := none
  deriving DecidableEq, Repr

/-- What the doc comment of a method says about types. -/
structure DocComment where
  params : List ParamTag := []
  /-- The type of the result; empty for a tag that gives none. -/
  returnType : Option String := none
  returnOrigin : Option ClassName := none
  /-- Whether the comment asks for the tags of the classes above. -/
  inherits : Bool := false
  deriving DecidableEq, Repr

namespace DocComment

/-- The first tag of a parameter. -/
def param? (doc : DocComment) (name : String) : Option ParamTag :=
  doc.params.find? (·.name == name)

def hasTags (doc : DocComment) : Bool := !doc.params.isEmpty || doc.returnType.isSome

/-- Adds a tag of a class above unless the parameter has one. -/
def inheritParam (origin : ClassName) (doc : DocComment) (tag : ParamTag) : DocComment :=
  if (doc.param? tag.name).isSome then doc
  else { doc with params := doc.params ++ [{ tag with origin := some (tag.origin.getD origin) }] }

/-- Takes over the tags that the comment of a class above has and this one lacks. -/
def inheritFrom (doc ancestor : DocComment) (origin : ClassName) : DocComment :=
  let doc := ancestor.params.foldl (inheritParam origin) doc
  if doc.returnType.isNone && ancestor.returnType.isSome then
    { doc with
      returnType := ancestor.returnType
      returnOrigin := some (ancestor.returnOrigin.getD origin) }
  else doc

/-- The characters that frame the lines of a comment. -/
def isFrame (c : Char) : Bool := c == '/' || c == '*' || c == ' '

def bareLine (line : List Char) : List Char :=
  Text.dropEndWhile isFrame ((Text.trim line).dropWhile isFrame)

/-- Splits a text at its first blank that no bracket encloses. A bracket that closes more than was
opened does not enclose anything. -/
def splitToken (depth : Int) : List Char → List Char × List Char
  | [] => ([], [])
  | c :: cs =>
    if c == '<' || c == '(' || c == '\x7b' then
      let (token, rest) := splitToken (depth + 1) cs
      (c :: token, rest)
    else if c == '>' || c == ')' || c == '\x7d' then
      let (token, rest) := splitToken (depth - 1) cs
      (c :: token, rest)
    else if Text.isBlank c && depth ≤ 0 then ([], c :: cs)
    else
      let (token, rest) := splitToken depth cs
      (c :: token, rest)

/-- Whether a token is a variable, possibly by reference or variadic. -/
def isVariable (token : List Char) : Bool :=
  Text.startsWith ['$'] (token.dropWhile fun c => c == '&' || c == '.')

def variableName (token : List Char) : String :=
  String.ofList (Text.dropEndWhile (fun c => c == ',' || c == ';')
    (token.dropWhile fun c => c == '&' || c == '.' || c == '$'))

/-- Whether a tag's name ends where its text ends or goes on with a blank. -/
def endsTagName (rest : List Char) : Bool :=
  match rest with
  | [] => true
  | c :: _ => Text.isBlank c

/-- Reads what follows the name of a parameter tag: type and variable in either order. -/
def readParam? (rest : List Char) : Option ParamTag :=
  if !endsTagName rest then none
  else
    let text := Text.trim rest
    let (first, afterFirst) := splitToken 0 text
    let (second, _) := splitToken 0 (Text.trim afterFirst)
    if isVariable text then some ⟨variableName first, String.ofList second, none⟩
    else if isVariable second then some ⟨variableName second, String.ofList first, none⟩
    else none

def readLine (doc : DocComment) (rawLine : List Char) : DocComment :=
  let line := bareLine rawLine
  if Text.contains "\x7b@inheritdoc\x7d".toList (Text.lower line) then
    { doc with inherits := true }
  else
    match Text.dropHead? "@param".toList line with
    | some rest =>
      match readParam? rest with
      | some tag => { doc with params := doc.params ++ [tag] }
      | none => doc
    | none =>
      match Text.dropHead? "@return".toList line with
      | some rest =>
        if doc.returnType.isNone && endsTagName rest then
          { doc with returnType := some (String.ofList (splitToken 0 (Text.trim rest)).1) }
        else doc
      | none =>
        if Text.sameIgnoringAsciiCase (String.ofList line) "@inheritdoc" then
          { doc with inherits := true }
        else doc

def ofText (comment : String) : DocComment :=
  (Text.lines comment.toList).foldl readLine {}

end DocComment
end SignatureInference
