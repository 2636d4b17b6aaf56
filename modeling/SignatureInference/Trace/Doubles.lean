import SignatureInference.SortedMap
import SignatureInference.Text.Blank
import SignatureInference.Text.Letter
import SignatureInference.Text.Search

/-! # Test doubles

Test tools declare the classes of their doubles while the tests run, so the declarations show up as
arguments in a trace. A double that extends or implements a real type is known by the name of its
class, or by its namespace if the namespace tells the real type. Objects of doubles are then taken
for objects of the real types.
-/
namespace SignatureInference.Trace

/-- The real types of the known doubles. A name that ends with a backslash is a namespace. -/
structure Doubles where
  realTypes : SortedMap String String := ∅
  deriving DecidableEq, Repr

namespace Doubles

/-- Undoes the escapes of a printed string, with a space in place of a line feed or a tab. Double
backslashes are out of the way, as NUL, while the other escapes are looked for. -/
def unescape (cs : List Char) : List Char :=
  let cs := Text.replaceAll ['\\', '\\'] ['\x00'] cs
  let cs := Text.replaceAll ['\\', 'n'] [' '] cs
  let cs := Text.replaceAll ['\\', 't'] [' '] cs
  Text.replaceAll ['\x00'] ['\\'] cs

/-- The word between a class and the types above it. -/
def dropRelation? (cs : List Char) : Option (List Char) :=
  (Text.dropHead? "extends".toList cs).or (Text.dropHead? "implements".toList cs)

/-- Whether a name is that of a mock: `Mock_`, the short name of the real type, and a hexadecimal
number. -/
def isMockName (name : List Char) : Bool :=
  ((Text.dropHead? "Mock_".toList name).bind (Text.breakOnLast? ['_'])).any fun (short, number) =>
    !short.isEmpty && !number.isEmpty && number.all fun c => c.isDigit || ('a' ≤ c && c ≤ 'f')

/-- The text with the types above a class, up to its body. If there are only blanks, the last of
them is that text. -/
def takeTypes? (cs : List Char) : Option (List Char × List Char) :=
  let blanks := cs.takeWhile Text.isBlank
  let rest := cs.dropWhile Text.isBlank
  let types := rest.takeWhile (· != '\x7b')
  if blanks.isEmpty then none
  else if !types.isEmpty then some (types, rest.dropWhile (· != '\x7b'))
  else if 2 ≤ blanks.length then some (blanks.drop (blanks.length - 1), rest)
  else none

def mockDeclaration? (cs : List Char) : Option ((List Char × List Char) × List Char) := do
  let cs ← Text.dropHead? "class".toList cs
  let cs ← Text.dropBlanks? cs
  let name := cs.takeWhile Text.isIdentPart
  if !isMockName name then none
  let cs ← Text.dropBlanks? (cs.dropWhile Text.isIdentPart)
  let cs ← dropRelation? cs
  let (types, rest) ← takeTypes? cs
  return ((name, types), rest)

/-- Identifiers joined by backslashes, as many as there are. -/
def takeQualified (cs : List Char) : List Char × List Char :=
  match cs with
  | [] => ([], [])
  | c :: cs =>
    if Text.isIdentPart c then
      let (name, rest) := takeQualified cs
      (c :: name, rest)
    else if c == '\\' && cs.head?.any Text.isIdentStart then
      let (name, rest) := takeQualified cs
      (c :: name, rest)
    else ([], c :: cs)

/-- The name of a type, without a backslash in front. -/
def typeName? (cs : List Char) : Option (List Char × List Char) :=
  let name := (Text.dropHead? ['\\'] cs).getD cs
  if name.head?.any Text.isIdentStart then some (takeQualified name) else none

/-- The type a mock stands for: the first one that does not belong to the test tool. -/
def realType? (types : List Char) : Option (List Char) :=
  (Text.findAll typeName? types).find? fun name =>
    name != "extends".toList && name != "implements".toList &&
      !Text.startsWith "PHPUnit\\".toList name

/-- Whether a text can follow the first part of the namespace of doubles: identifiers, each followed
by at most one backslash. -/
def isNamespaceRest : List Char → Bool
  | [] => true
  | ['\\'] => true
  | '\\' :: c :: cs => Text.isIdentStart c && isNamespaceRest cs
  | _ :: cs => isNamespaceRest cs

/-- The declaration of a double in a namespace of its own: the real type. -/
def doubleDeclaration? (cs : List Char) : Option (List Char × List Char) := do
  let cs ← Text.dropHead? "namespace".toList cs
  let cs ← Text.dropBlanks? cs
  let cs ← Text.dropHead? "Double\\".toList cs
  let isPart := fun c => Text.isIdentPart c || c == '\\'
  let space := cs.takeWhile isPart
  if !(space.head?.any Text.isIdentStart && isNamespaceRest space) then none
  let cs ← Text.dropHead? ['\x7b'] (Text.trimStart (cs.dropWhile isPart))
  let cs ← Text.dropHead? "class".toList (Text.trimStart cs)
  let cs ← Text.dropBlanks? cs
  if !cs.head?.any Text.isIdentStart then none
  let cs ← Text.dropBlanks? (cs.dropWhile Text.isWordChar)
  let rest ← dropRelation? cs
  return (Text.dropEndWhile (· == '\\') space, rest)

def declared (text : List Char) : List (String × String) :=
  let mocks := (Text.findAll mockDeclaration? text).filterMap fun (name, types) =>
    (realType? types).map fun real => (String.ofList name, String.ofList real)
  let doubles := (Text.findAll doubleDeclaration? text).map fun real =>
    ("Double\\" ++ String.ofList real ++ "\\", String.ofList real)
  mocks ++ doubles

def declaredIn (argument : String) : List (String × String) :=
  let cs := argument.toList
  if Text.contains "Mock_".toList cs || Text.contains "Double\\".toList cs then
    declared (unescape cs)
  else []

/-- Enters the doubles that arguments declare, the later ones replacing the earlier ones. -/
def observe (d : Doubles) (arguments : List String) : Doubles :=
  ⟨(arguments.flatMap declaredIn).foldl (fun m e => m.insert e.1 e.2) d.realTypes⟩

def size (d : Doubles) : Nat := d.realTypes.size

def realType (d : Doubles) (name : String) : Option String := d.realTypes.get? name

/-- Makes one backslash of two. -/
def joinBackslashes : List Char → List Char
  | [] => []
  | '\\' :: '\\' :: cs => '\\' :: joinBackslashes cs
  | c :: cs => c :: joinBackslashes cs

/-- The name of the class in the dump of an object. -/
def objectName? (value : String) : Option (List Char) := do
  let rest ← Text.dropHead? "class ".toList (Text.trimStart (joinBackslashes value.toList))
  let name := (rest.takeWhile fun c => !Text.isBlank c && c != '\x7b').dropWhile (· == '\\')
  if name.isEmpty then none else some name

/-- Whether a double of the given name has the class. -/
def covers (double : String) (className : List Char) : Bool :=
  let double := double.toList
  if Text.endsWith ['\\'] double then Text.startsWith double className else className == double

def replacement? (d : Doubles) (value : String) : Option String := do
  let name ← objectName? value
  let (_, real) ← d.realTypes.entries.find? fun e => covers e.1 name
  return "class " ++ real

def replace (d : Doubles) (value : String) : String := (d.replacement? value).getD value

end Doubles
end SignatureInference.Trace
