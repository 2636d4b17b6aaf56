/-! # JSON values

A value as a tree. A string is a text, unless it has an escaped surrogate that stands alone, which
is part of no text; a number is kept as it is written.
-/
namespace SignatureInference

inductive Json where
  | null
  | bool (value : Bool)
  | number (literal : String)
  /-- None stands for a string that is no text. -/
  | string (text : Option String)
  | array (items : List Json)
  | object (fields : List (Option String × Json))
  deriving Repr

namespace Json

def ofString (text : String) : Json := .string (some text)

def ofNat (n : Nat) : Json := .number (toString n)

/-- An object with the given fields in order. -/
def ofFields (fields : List (String × Json)) : Json := .object (fields.map fun f => (some f.1, f.2))

def text? : Json → Option String
  | .string text => text
  | _ => none

def bool? : Json → Option Bool
  | .bool b => some b
  | _ => none

def items? : Json → Option (List Json)
  | .array items => some items
  | _ => none

def digitsValue (digits : List Char) : Nat :=
  digits.foldl (fun n d => n * 10 + (d.toNat - '0'.toNat)) 0

/-- The value of a number without sign, fraction and exponent that fits into 64 bits. -/
def uint64? : Json → Option UInt64
  | .number literal =>
    let n := digitsValue literal.toList
    if literal.toList.all Char.isDigit && n < UInt64.size then some (UInt64.ofNat n) else none
  | _ => none

end Json
end SignatureInference
