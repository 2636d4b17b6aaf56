/-! # Reading UTF-8

Bytes are read one character at a time. A byte sequence that begins like a character and breaks off
counts as one malformed piece, as long as it can be; any other byte that fits nowhere is a malformed
piece of its own.
-/
namespace SignatureInference.Text

def isContinuation (b : UInt8) : Bool := 0x80 ≤ b && b ≤ 0xBF

/-- Whether `second` may follow `first` in a character of three bytes. -/
def continuesThree (first second : UInt8) : Bool :=
  if first == 0xE0 then 0xA0 ≤ second && second ≤ 0xBF
  else if first == 0xED then 0x80 ≤ second && second ≤ 0x9F
  else isContinuation second

def continuesFour (first second : UInt8) : Bool :=
  if first == 0xF0 then 0x90 ≤ second && second ≤ 0xBF
  else if first == 0xF4 then 0x80 ≤ second && second ≤ 0x8F
  else isContinuation second

def continuationBits (b : UInt8) : Nat := b.toNat - 0x80

/-- The characters of a byte sequence, `none` for each malformed piece. -/
def decodePieces : List UInt8 → List (Option Char)
  | [] => []
  | a :: as =>
    if a < 0x80 then some (Char.ofNat a.toNat) :: decodePieces as
    else if 0xC2 ≤ a && a ≤ 0xDF then
      match as with
      | [] => [none]
      | b :: bs =>
        if isContinuation b then
          some (Char.ofNat ((a.toNat - 0xC0) * 64 + continuationBits b)) :: decodePieces bs
        else none :: decodePieces (b :: bs)
    else if 0xE0 ≤ a && a ≤ 0xEF then
      match as with
      | [] => [none]
      | b :: bs =>
        if continuesThree a b then
          match bs with
          | [] => [none]
          | c :: cs =>
            if isContinuation c then
              some (Char.ofNat (((a.toNat - 0xE0) * 64 + continuationBits b) * 64 +
                continuationBits c)) :: decodePieces cs
            else none :: decodePieces (c :: cs)
        else none :: decodePieces (b :: bs)
    else if 0xF0 ≤ a && a ≤ 0xF4 then
      match as with
      | [] => [none]
      | b :: bs =>
        if continuesFour a b then
          match bs with
          | [] => [none]
          | c :: cs =>
            if isContinuation c then
              match cs with
              | [] => [none]
              | d :: ds =>
                if isContinuation d then
                  some (Char.ofNat ((((a.toNat - 0xF0) * 64 + continuationBits b) * 64 +
                    continuationBits c) * 64 + continuationBits d)) :: decodePieces ds
                else none :: decodePieces (d :: ds)
            else none :: decodePieces (c :: cs)
        else none :: decodePieces (b :: bs)
    else none :: decodePieces as

/-- The text of a byte sequence, if no piece is malformed. -/
def decode? (bytes : List UInt8) : Option (List Char) := (decodePieces bytes).mapM id

/-- The text of a byte sequence with U+FFFD in place of each malformed piece. -/
def decodeLossy (bytes : List UInt8) : List Char :=
  (decodePieces bytes).map (·.getD (Char.ofNat 0xFFFD))

end SignatureInference.Text
