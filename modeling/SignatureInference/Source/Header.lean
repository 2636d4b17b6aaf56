import SignatureInference.Text.Blank
import SignatureInference.Text.Letter

/-! # Headers of declarations

The patterns that a masked source is searched for: a namespace statement, the head of a class-like
declaration, the head of a function. Except for the namespace keyword, letters count the same in
both cases, and the long s and the Kelvin sign count as the letters they stand for.
-/
namespace SignatureInference.Source

/-- A character that begins a name when case does not count. -/
def isNameStart (c : Char) : Bool :=
  Text.isIdentStart c || c.toNat == 0x17F || c.toNat == 0x212A

def isNamePart (c : Char) : Bool :=
  Text.isIdentPart c || c.toNat == 0x17F || c.toNat == 0x212A

def takeName? (cs : List Char) : Option (List Char × List Char) :=
  match cs with
  | [] => none
  | c :: _ =>
    if isNameStart c then some (cs.takeWhile isNamePart, cs.dropWhile isNamePart) else none

/-- Whether a word may begin after the given character. -/
def wordMayBegin (previous : Option Char) : Bool := previous.all (!Text.isWordChar ·)

/-- A pattern found at the beginning of a text: the name in it, and the text after it. -/
structure Found where
  name : List Char
  rest : List Char
  deriving DecidableEq, Repr

/-- A namespace statement up to its semicolon or brace. -/
def namespaceHeader? (previous : Option Char) (cs : List Char) : Option Found := do
  if !wordMayBegin previous then none
  let cs ← Text.dropHead? "namespace".toList cs
  let cs ← Text.dropBlanks? cs
  let isPart := fun c => Text.isIdentPart c || c == '\\'
  match cs with
  | [] => none
  | c :: _ =>
    if !Text.isIdentStart c then none
    else
      match Text.trimStart (cs.dropWhile isPart) with
      | [] => none
      | d :: rest => if d = ';' || d = '\x7b' then some ⟨cs.takeWhile isPart, rest⟩ else none

def classWords : List (List Char) :=
  ["class".toList, "interface".toList, "trait".toList, "enum".toList]

def classHeader? (previous : Option Char) (cs : List Char) : Option Found := do
  if !wordMayBegin previous then none
  let cs ← classWords.findSome? (Text.dropWord? · cs)
  let cs ← Text.dropBlanks? cs
  let (name, rest) ← takeName? cs
  return ⟨name, rest⟩

/-- The head of a named function up to the parenthesis that opens its parameters. -/
def functionHeader? (previous : Option Char) (cs : List Char) : Option Found := do
  if !wordMayBegin previous then none
  let cs ← Text.dropWord? "function".toList cs
  let cs := Text.trimStart cs
  let cs := (Text.dropHead? ['&'] cs).getD cs
  let (name, cs) ← takeName? (Text.trimStart cs)
  let rest ← Text.dropHead? ['('] (Text.trimStart cs)
  return ⟨name, rest⟩

/-- An occurrence of a pattern: where it begins and ends, and the name in it. -/
structure Occurrence where
  start : Nat
  stop : Nat
  name : List Char
  deriving DecidableEq, Repr

/-- The occurrences of a pattern from left to right, none reaching into the next. The text begins at
offset `pos`, after the character `previous`, and its first `skip` characters are passed over. -/
def occurrencesFrom (pattern : Option Char → List Char → Option Found) (previous : Option Char)
    (pos skip : Nat) : List Char → List Occurrence
  | [] => []
  | c :: cs =>
    match skip with
    | skip + 1 => occurrencesFrom pattern (some c) (pos + c.utf8Size) skip cs
    | 0 =>
      match pattern previous (c :: cs) with
      | some found =>
        let stop := pos + (Text.byteLength (c :: cs) - Text.byteLength found.rest)
        ⟨pos, stop, found.name⟩ ::
          occurrencesFrom pattern (some c) (pos + c.utf8Size) (cs.length - found.rest.length) cs
      | none => occurrencesFrom pattern (some c) (pos + c.utf8Size) 0 cs

def occurrences (pattern : Option Char → List Char → Option Found) (text : List Char) :
    List Occurrence :=
  occurrencesFrom pattern none 0 0 text

def firstOccurrence? (pattern : Option Char → List Char → Option Found) (previous : Option Char)
    (pos : Nat) : List Char → Option Occurrence
  | [] => none
  | c :: cs =>
    match pattern previous (c :: cs) with
    | some found =>
      some ⟨pos, pos + (Text.byteLength (c :: cs) - Text.byteLength found.rest), found.name⟩
    | none => firstOccurrence? pattern (some c) (pos + c.utf8Size) cs

end SignatureInference.Source
