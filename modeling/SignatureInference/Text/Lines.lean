import SignatureInference.Text.Basic

/-! # Lines

A line ends at a line feed, and a carriage return right before it belongs to the ending. A line
feed at the very end of a text does not begin another line.
-/
namespace SignatureInference.Text

/-- Removes one carriage return from the end of a line. -/
def dropReturn (line : List Char) : List Char :=
  (dropLast? ['\r'] line).getD line

/-- The lines of a text without their endings. A last line that no line feed ends keeps a carriage
return at its end. -/
def lines (cs : List Char) : List (List Char) :=
  let pieces := splitWhere (· == '\n') cs
  match pieces.getLast? with
  | some last => pieces.dropLast.map dropReturn ++ (if last = [] then [] else [last])
  | none => []

/-- The lines of a byte sequence without their line feeds. -/
def byteLines : List UInt8 → List (List UInt8)
  | [] => []
  | b :: bs =>
    if b = 10 then [] :: byteLines bs
    else
      match byteLines bs with
      | [] => [[b]]
      | line :: lines => (b :: line) :: lines

end SignatureInference.Text
