import SignatureInference.Text.Basic

/-! # Blank characters

Blank characters are those with the Unicode property White_Space; trimming removes them from the
ends of a text.
-/
namespace SignatureInference.Text

/-- The White_Space property. -/
def isBlank (c : Char) : Bool :=
  let n := c.toNat
  (9 ≤ n && n ≤ 13) || n == 32 || n == 0x85 || n == 0xA0 || n == 0x1680 ||
    (0x2000 ≤ n && n ≤ 0x200A) || n == 0x2028 || n == 0x2029 || n == 0x202F || n == 0x205F ||
    n == 0x3000

def trimStart (cs : List Char) : List Char := cs.dropWhile isBlank

/-- Drops blanks, of which there has to be one. -/
def dropBlanks? (cs : List Char) : Option (List Char) :=
  match cs with
  | [] => none
  | c :: _ => if isBlank c then some (trimStart cs) else none

def trimEnd (cs : List Char) : List Char := dropEndWhile isBlank cs

def trim (cs : List Char) : List Char := trimEnd (trimStart cs)

/-- The maximal runs of characters that are not blank. -/
def words (cs : List Char) : List (List Char) :=
  (splitWhere isBlank cs).filter (!·.isEmpty)

end SignatureInference.Text
