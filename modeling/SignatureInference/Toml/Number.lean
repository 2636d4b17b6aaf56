import SignatureInference.Json.Reader
import SignatureInference.Toml.Item

/-! # TOML numbers, dates and times

Underscores may stand between two digits. An integer fits into 64 bits with sign, and a decimal
fraction is not so large that it would count as infinite.
-/
namespace SignatureInference.Toml

def readSign (cs : List Char) : List Char × List Char :=
  match cs with
  | '+' :: rest => (['+'], rest)
  | '-' :: rest => (['-'], rest)
  | _ => ([], cs)

def hasDoubleUnderscore : List Char → Bool
  | '_' :: '_' :: _ => true
  | _ :: cs => hasDoubleUnderscore cs
  | [] => false

/-- Digits with underscores between them. Gives the digits alone. -/
def readDigits? (isDigit : Char → Bool) (cs : List Char) : Option (List Char × List Char) :=
  let isPart := fun c => isDigit c || c == '_'
  let run := cs.takeWhile isPart
  if run.head?.any isDigit && run.getLast?.any isDigit && !hasDoubleUnderscore run then
    some (run.filter (· != '_'), cs.dropWhile isPart)
  else none

/-- A decimal integer as sign and digits. No zero stands in front of other digits. -/
def readDecimal? (cs : List Char) : Option ((List Char × List Char) × List Char) := do
  let (sign, cs) := readSign cs
  let (digits, rest) ← readDigits? Char.isDigit cs
  if digits.head? == some '0' && 1 < digits.length then none
  return ((sign, digits), rest)

def valueIn (base : Nat) (digits : List Char) : Nat :=
  digits.foldl (fun n d => n * base + (Json.hexValue? d).getD 0) 0

/-- An integer that fits into 64 bits. -/
def integer? (n : Int) : Option Item :=
  if Int64.minValue.toInt ≤ n && n ≤ Int64.maxValue.toInt then some (.integer n) else none

/-- An integer in a base other than ten, after its mark. -/
def readInBase? (base : Nat) (isDigit : Char → Bool) (cs : List Char) :
    Option (Item × List Char) := do
  let (digits, rest) ← readDigits? isDigit cs
  return (← integer? (valueIn base digits), rest)

def readInteger? (cs : List Char) : Option (Item × List Char) :=
  match cs with
  | '0' :: 'x' :: rest => readInBase? 16 (fun c => (Json.hexValue? c).isSome) rest
  | '0' :: 'o' :: rest => readInBase? 8 (fun c => '0' ≤ c && c ≤ '7') rest
  | '0' :: 'b' :: rest => readInBase? 2 (fun c => c == '0' || c == '1') rest
  | _ => do
    let ((sign, digits), rest) ← readDecimal? cs
    let n : Int := valueIn 10 digits
    return (← integer? (if sign == ['-'] then -n else n), rest)

def readFraction? : List Char → Option (List Char × List Char)
  | '.' :: cs => readDigits? Char.isDigit cs
  | cs => some ([], cs)

def readExponent? (cs : List Char) : Option ((List Char × List Char) × List Char) :=
  match cs with
  | [] => some (([], []), [])
  | e :: rest =>
    if e == 'e' || e == 'E' then do
      let (sign, rest) := readSign rest
      let (digits, rest) ← readDigits? Char.isDigit rest
      return ((sign, digits), rest)
    else some (([], []), cs)

/-- Whether a decimal `digits · 10 ^ exponent` is at least half a step above the largest double. Far
away from that size, the number of digits decides. -/
def isInfinite (digits : List Char) (exponent : Int) : Bool :=
  let digits := digits.dropWhile (· == '0')
  let size := digits.length + exponent
  if digits.isEmpty || size < 300 then false
  else if 320 < size then true
  else
    let n := valueIn 10 digits
    let bound := Nat.pow 2 1024 - Nat.pow 2 970
    if 0 ≤ exponent then bound ≤ n * Nat.pow 10 exponent.toNat
    else bound * Nat.pow 10 (-exponent).toNat ≤ n

/-- A number with a fraction or an exponent. -/
def readFloat? (cs : List Char) : Option (Item × List Char) := do
  let ((sign, digits), rest) ← readDecimal? cs
  let (fraction, rest) ← readFraction? rest
  let ((exponentSign, exponent), rest) ← readExponent? rest
  if fraction.isEmpty && exponent.isEmpty then none
  let shift : Int := valueIn 10 exponent
  let power := (if exponentSign == ['-'] then -shift else shift) - fraction.length
  if sign != ['-'] && isInfinite (digits ++ fraction) power then none
  return (.float (String.ofList (cs.take (cs.length - rest.length))), rest)

/-- Infinity, or no number at all. -/
def readSpecial? (cs : List Char) : Option (Item × List Char) :=
  match readSign cs with
  | (sign, 'i' :: 'n' :: 'f' :: rest) => some (.float (String.ofList sign ++ "inf"), rest)
  | (sign, 'n' :: 'a' :: 'n' :: rest) => some (.float (String.ofList sign ++ "nan"), rest)
  | _ => none

/-- A number of exactly two digits that is in range. -/
def readTwo? (least most : Nat) : List Char → Option (Nat × List Char)
  | a :: b :: cs =>
    let n := valueIn 10 [a, b]
    if a.isDigit && b.isDigit && least ≤ n && n ≤ most then some (n, cs) else none
  | _ => none

def daysIn (year month : Nat) : Nat :=
  if month = 2 then
    if year % 4 = 0 && (year % 100 != 0 || year % 400 = 0) then 29 else 28
  else if month = 4 || month = 6 || month = 9 || month = 11 then 30
  else 31

def readDate? : List Char → Option (List Char)
  | a :: b :: c :: d :: '-' :: cs => do
    if !([a, b, c, d].all Char.isDigit) then none
    let (month, cs) ← readTwo? 1 12 cs
    let cs ← Text.dropHead? ['-'] cs
    let (_, cs) ← readTwo? 1 (daysIn (valueIn 10 [a, b, c, d]) month) cs
    return cs
  | _ => none

def dropSecondFraction (cs : List Char) : List Char :=
  match cs with
  | '.' :: rest => if rest.head?.any Char.isDigit then rest.dropWhile Char.isDigit else cs
  | _ => cs

def readTime? (cs : List Char) : Option (List Char) := do
  let (_, cs) ← readTwo? 0 23 cs
  let cs ← Text.dropHead? [':'] cs
  let (_, cs) ← readTwo? 0 59 cs
  let cs ← Text.dropHead? [':'] cs
  let (_, cs) ← readTwo? 0 60 cs
  return dropSecondFraction cs

/-- The distance to the time of Greenwich, if it is given. -/
def readOffset? (cs : List Char) : Option (List Char) :=
  match cs with
  | [] => some []
  | c :: rest =>
    if c == 'Z' || c == 'z' then some rest
    else if c == '+' || c == '-' then do
      let (_, rest) ← readTwo? 0 23 rest
      let rest ← Text.dropHead? [':'] rest
      let (_, rest) ← readTwo? 0 59 rest
      return rest
    else some cs

/-- A date with or without a time, or a time. -/
def readMoment? (cs : List Char) : Option (Item × List Char) := do
  let rest ←
    match readDate? cs with
    | none => readTime? cs
    | some rest =>
      let time :=
        match rest with
        | c :: time => if c == 'T' || c == 't' || c == ' ' then readTime? time else none
        | [] => none
      match time with
      | some rest => readOffset? rest
      | none => some rest
  return (.moment (String.ofList (cs.take (cs.length - rest.length))), rest)

/-- A number, a date or a time. -/
def readNumber? (cs : List Char) : Option (Item × List Char) :=
  (readMoment? cs).or <| (readFloat? cs).or <| (readSpecial? cs).or (readInteger? cs)

end SignatureInference.Toml
