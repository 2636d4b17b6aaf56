/-! # Glob patterns

Patterns for file paths. A question mark stands for any character and a star for any text, slashes
included. Two stars stand for any number of whole directories. A bracket expression stands for one
character in, or with an exclamation mark outside of, a list of characters and ranges.
-/
namespace SignatureInference.Glob

/-- A character, or a range of characters with both ends. -/
inductive CharSpec where
  | single (c : Char)
  | range (first last : Char)
  deriving DecidableEq, Repr

def CharSpec.admits (c : Char) : CharSpec → Bool
  | single d => c == d
  | range first last => first ≤ c && c ≤ last

inductive Token where
  | char (c : Char)
  | anyChar
  | anyText
  /-- Whole directories, or all the rest of a path. -/
  | anyDirectories
  | within (specs : List CharSpec)
  | outside (specs : List CharSpec)
  deriving DecidableEq, Repr

inductive Fault where
  | tooManyStars
  | partialDirectory
  | badRange
  deriving DecidableEq, Repr

/-- A fault and the index of the character where it shows. -/
structure PatternError where
  fault : Fault
  position : Nat
  deriving DecidableEq, Repr

namespace PatternError

def message (e : PatternError) : String :=
  let reason :=
    match e.fault with
    | .tooManyStars => "wildcards are either regular `*` or recursive `**`"
    | .partialDirectory => "recursive wildcards must form a single path component"
    | .badRange => "invalid range pattern"
  s!"Pattern syntax error near position {e.position}: {reason}"

end PatternError

def readSpecs : List Char → List CharSpec
  | first :: '-' :: last :: cs => .range first last :: readSpecs cs
  | c :: cs => .single c :: readSpecs cs
  | [] => []

/-- Reads a bracket expression, given what follows its opening bracket. A closing bracket right at
the beginning is a character like any other. Yields the token and the number of characters read. -/
def readBracket? : List Char → Option (Token × Nat)
  | '!' :: c :: cs =>
    let inner := cs.takeWhile (· != ']')
    if inner.length < cs.length then some (.outside (readSpecs (c :: inner)), inner.length + 3)
    else none
  | c :: cs =>
    let inner := cs.takeWhile (· != ']')
    if inner.length < cs.length && c != '!' then
      some (.within (readSpecs (c :: inner)), inner.length + 2)
    else none
  | [] => none

/-- Reads the token at the beginning of a text, which stands at index `position` of the pattern
after the character `previous`. Yields the token and its length. -/
def readToken (previous : Option Char) (position : Nat) :
    List Char → Except PatternError (Token × Nat)
  | '*' :: cs =>
    match ('*' :: cs).takeWhile (· == '*') with
    | [_] => .ok (.anyText, 1)
    | [_, _] =>
      if previous.all (· == '/') then
        match cs.drop 1 with
        | [] => .ok (.anyDirectories, 2)
        | '/' :: _ => .ok (.anyDirectories, 3)
        | _ => .error ⟨.partialDirectory, position + 2⟩
      else .error ⟨.partialDirectory, position - 1⟩
    | _ => .error ⟨.tooManyStars, position + 2⟩
  | '[' :: cs =>
    match readBracket? cs with
    | some (token, length) => .ok (token, length + 1)
    | none => .error ⟨.badRange, position⟩
  | '?' :: _ => .ok (.anyChar, 1)
  | c :: _ => .ok (.char c, 1)
  | [] => .ok (.anyText, 0)

/-- Reads a pattern from index `position` on, where `skip` characters belong to the token before. -/
def readFrom (previous : Option Char) (position skip : Nat) :
    List Char → Except PatternError (List Token)
  | [] => .ok []
  | c :: cs =>
    match skip with
    | skip + 1 => readFrom (some c) (position + 1) skip cs
    | 0 => do
      let (token, length) ← readToken previous position (c :: cs)
      let tokens ← readFrom (some c) (position + 1) (length - 1) cs
      return token :: tokens

def read (pattern : String) : Except PatternError (List Token) := readFrom none 0 0 pattern.toList

/-- Whether `p` holds of a text or of what is left of it after dropping characters from its
front. -/
def someSuffix (p : List Char → Bool) : List Char → Bool
  | [] => p []
  | c :: cs => p (c :: cs) || someSuffix p cs

/-- Whether `p` holds of what follows some slash in a text, or of its end. -/
def someDirectory (p : List Char → Bool) : List Char → Bool
  | [] => p []
  | c :: cs => (c == '/' && p cs) || someDirectory p cs

/-- Whether a path as a whole fits a pattern. -/
def fits : List Token → List Char → Bool
  | [], cs => cs.isEmpty
  | .anyText :: ts, cs => someSuffix (fits ts) cs
  | .anyDirectories :: ts, cs => fits ts cs || someDirectory (fits ts) cs
  | _ :: _, [] => false
  | .char d :: ts, c :: cs => c == d && fits ts cs
  | .anyChar :: ts, _ :: cs => fits ts cs
  | .within specs :: ts, c :: cs => specs.any (·.admits c) && fits ts cs
  | .outside specs :: ts, c :: cs => !specs.any (·.admits c) && fits ts cs

end SignatureInference.Glob
