/-! # Texts and byte offsets

A text is a list of characters. A position in it is a byte offset: the number of bytes that the
characters before it take in UTF-8. Cutting a text at a position fails when the position lies
past the end or inside a character.
-/
namespace SignatureInference.Text

/-- The number of bytes a text takes in UTF-8. -/
def byteLength : List Char → Nat
  | [] => 0
  | c :: cs => c.utf8Size + byteLength cs

@[simp] theorem byteLength_nil : byteLength [] = 0 := rfl

@[simp] theorem byteLength_cons (c : Char) (cs : List Char) :
    byteLength (c :: cs) = c.utf8Size + byteLength cs := rfl

@[simp] theorem byteLength_append (a b : List Char) :
    byteLength (a ++ b) = byteLength a + byteLength b := by
  induction a with
  | nil => simp
  | cons c cs ih => simp [ih, Nat.add_assoc]

/-- The text before and after a byte offset. -/
def splitAt? : Nat → List Char → Option (List Char × List Char)
  | 0, cs => some ([], cs)
  | _ + 1, [] => none
  | n + 1, c :: cs =>
    if c.utf8Size ≤ n + 1 then
      (splitAt? (n + 1 - c.utf8Size) cs).map fun p => (c :: p.1, p.2)
    else none

@[simp] theorem splitAt?_zero (cs : List Char) : splitAt? 0 cs = some ([], cs) := by
  cases cs <;> rfl

def isBoundary (cs : List Char) (offset : Nat) : Bool := (splitAt? offset cs).isSome

def slice? (cs : List Char) (start stop : Nat) : Option (List Char) := do
  if stop < start then none
  let (_, rest) ← splitAt? start cs
  let (middle, _) ← splitAt? (stop - start) rest
  return middle

/-- The text from a byte offset on, empty past the end; an offset inside a character is moved to
the character's end. -/
def dropBytes : Nat → List Char → List Char
  | 0, cs => cs
  | _ + 1, [] => []
  | n + 1, c :: cs => dropBytes (n + 1 - c.utf8Size) cs

/-- The text before a byte offset, the whole text past the end. -/
def takeBytes : Nat → List Char → List Char
  | 0, _ => []
  | _ + 1, [] => []
  | n + 1, c :: cs => c :: takeBytes (n + 1 - c.utf8Size) cs

/-- What follows `head` in a text that begins with it. -/
def dropHead? : List Char → List Char → Option (List Char)
  | [], cs => some cs
  | _ :: _, [] => none
  | h :: hs, c :: cs => if h = c then dropHead? hs cs else none

def dropLast? (last cs : List Char) : Option (List Char) :=
  (dropHead? last.reverse cs.reverse).map List.reverse

def startsWith (head cs : List Char) : Bool := (dropHead? head cs).isSome

def endsWith (last cs : List Char) : Bool := startsWith last.reverse cs.reverse

/-- The texts around the first occurrence of `needle`. -/
def breakOn? (needle : List Char) : List Char → Option (List Char × List Char)
  | [] => if needle = [] then some ([], []) else none
  | c :: cs =>
    match dropHead? needle (c :: cs) with
    | some rest => some ([], rest)
    | none => (breakOn? needle cs).map fun p => (c :: p.1, p.2)

def breakOnLast? (needle cs : List Char) : Option (List Char × List Char) :=
  (breakOn? needle.reverse cs.reverse).map fun p => (p.2.reverse, p.1.reverse)

def contains (needle cs : List Char) : Bool := (breakOn? needle cs).isSome

/-- Drops the longest end of a text whose characters all satisfy `p`. -/
def dropEndWhile (p : Char → Bool) (cs : List Char) : List Char :=
  (cs.reverse.dropWhile p).reverse

/-- The pieces of a text between the characters that satisfy `p`; never empty. -/
def splitWhere (p : Char → Bool) : List Char → List (List Char)
  | [] => [[]]
  | c :: cs =>
    if p c then [] :: splitWhere p cs
    else
      match splitWhere p cs with
      | [] => [[c]]
      | piece :: pieces => (c :: piece) :: pieces

def onString (f : List Char → List Char) (s : String) : String := String.ofList (f s.toList)

def sameIgnoringAsciiCase (a b : String) : Bool :=
  a.toList.map Char.toLower == b.toList.map Char.toLower

/-- An ASCII letter or an underscore. -/
def isIdentStart (c : Char) : Bool := c.isAlpha || c == '_'

/-- An ASCII letter, an ASCII digit or an underscore. -/
def isIdentPart (c : Char) : Bool := c.isAlphanum || c == '_'

end SignatureInference.Text
