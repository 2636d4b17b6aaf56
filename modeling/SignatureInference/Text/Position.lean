import SignatureInference.Text.Basic

/-! # Lines and columns

The line and the column of a byte offset, both counted from one. Columns count characters.
-/
namespace SignatureInference.Text

structure Position where
  line : Nat
  column : Nat
  deriving DecidableEq, Repr

namespace Position

def first : Position := ⟨1, 1⟩

def advance (p : Position) (c : Char) : Position :=
  if c = '\n' then ⟨p.line + 1, 1⟩ else ⟨p.line, p.column + 1⟩

/-- The place `offset` bytes after `p`, where `cs` follows `p`; the end of `cs` if it is shorter,
and the end of a character for an offset inside it. -/
def after (p : Position) : Nat → List Char → Position
  | 0, _ => p
  | _ + 1, [] => p
  | n + 1, c :: cs => (p.advance c).after (n + 1 - c.utf8Size) cs

end Position

def positionOf (cs : List Char) (offset : Nat) : Position := Position.first.after offset cs

end SignatureInference.Text
