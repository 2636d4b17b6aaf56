import SignatureInference.Text.Basic

/-! # Matching brackets

The bracket that closes another one. Only brackets of the same kind are counted.
-/
namespace SignatureInference.Source

def closer? : Char → Option Char
  | '(' => some ')'
  | '\x7b' => some '\x7d'
  | '[' => some ']'
  | _ => none

/-- The offset of the closing bracket that brings `depth` to zero, in a text that begins at offset
`pos`. -/
def closingFrom (opening closing : Char) (depth pos : Nat) : List Char → Option Nat
  | [] => none
  | c :: cs =>
    if c = opening then closingFrom opening closing (depth + 1) (pos + c.utf8Size) cs
    else if c = closing then
      if depth ≤ 1 then some pos
      else closingFrom opening closing (depth - 1) (pos + c.utf8Size) cs
    else closingFrom opening closing depth (pos + c.utf8Size) cs

/-- The offset of the bracket that closes the one at offset `start`. -/
def findClosing (text : List Char) (start : Nat) : Option Nat :=
  match Text.splitAt? start text with
  | some (_, c :: cs) =>
    match closer? c with
    | some closing => closingFrom c closing 0 start (c :: cs)
    | none => none
  | _ => none

end SignatureInference.Source
