import SignatureInference.Json.Value
import SignatureInference.Text.Basic

/-! # Reading JSON

A value is read off the front of a text together with what follows it. Every step of the reader
consumes a character, so the length of the text bounds the number of steps.
-/
namespace SignatureInference.Json

/-- The characters that may stand between tokens. -/
def isSpace (c : Char) : Bool := c == ' ' || c == '\n' || c == '\r' || c == '\t'

def skipSpace (cs : List Char) : List Char := cs.dropWhile isSpace

def hexValue? (c : Char) : Option Nat :=
  if c.isDigit then some (c.toNat - '0'.toNat)
  else if 'a' ≤ c && c ≤ 'f' then some (c.toNat - 'a'.toNat + 10)
  else if 'A' ≤ c && c ≤ 'F' then some (c.toNat - 'A'.toNat + 10)
  else none

def hexUnit? (a b c d : Char) : Option Nat := do
  return ((((← hexValue? a) * 16 + (← hexValue? b)) * 16 + (← hexValue? c)) * 16 + (← hexValue? d))

/-- What a letter after a backslash stands for. -/
def escaped? (c : Char) : Option Char :=
  if c = '"' || c = '\\' || c = '/' then some c
  else if c = 'b' then some (Char.ofNat 8)
  else if c = 'f' then some (Char.ofNat 12)
  else if c = 'n' then some '\n'
  else if c = 'r' then some '\r'
  else if c = 't' then some '\t'
  else none

/-- The code points of a string up to its closing quotation mark, and what follows it. An escape
stands for one unit of UTF-16. -/
def readUnits? : List Char → Option (List Nat × List Char)
  | [] => none
  | '\\' :: 'u' :: a :: b :: c :: d :: cs => do
    let u ← hexUnit? a b c d
    let (us, rest) ← readUnits? cs
    return (u :: us, rest)
  | '\\' :: e :: cs => do
    let c ← escaped? e
    let (us, rest) ← readUnits? cs
    return (c.toNat :: us, rest)
  | c :: cs =>
    if c = '"' then some ([], cs)
    else if c = '\\' || c.toNat < 32 then none
    else do
      let (us, rest) ← readUnits? cs
      return (c.toNat :: us, rest)

/-- The first half of a pair that stands for one character. -/
def isHighSurrogate (u : Nat) : Bool := 0xD800 ≤ u && u ≤ 0xDBFF

/-- The second half of a pair that stands for one character. -/
def isLowSurrogate (u : Nat) : Bool := 0xDC00 ≤ u && u ≤ 0xDFFF

/-- The text of code points, in which halves have to come in pairs. -/
def unitsText? : List Nat → Option (List Char)
  | [] => some []
  | [u] => if isHighSurrogate u || isLowSurrogate u then none else some [Char.ofNat u]
  | u :: v :: us =>
    if isHighSurrogate u then
      if isLowSurrogate v then
        (unitsText? us).map (Char.ofNat (0x10000 + (u - 0xD800) * 0x400 + (v - 0xDC00)) :: ·)
      else none
    else if isLowSurrogate u then none
    else (unitsText? (v :: us)).map (Char.ofNat u :: ·)

/-- A string after its opening quotation mark. -/
def readString? (cs : List Char) : Option (Option String × List Char) := do
  let (units, rest) ← readUnits? cs
  return ((unitsText? units).map String.ofList, rest)

/-- Digits, of which there has to be one. -/
def readDigits? (cs : List Char) : Option (List Char × List Char) :=
  match cs.takeWhile Char.isDigit with
  | [] => none
  | digits => some (digits, cs.dropWhile Char.isDigit)

/-- The digits before the point: zero, or digits that do not begin with zero. -/
def readInteger? (cs : List Char) : Option (List Char × List Char) := do
  let (digits, rest) ← readDigits? cs
  match digits with
  | '0' :: _ :: _ => none
  | _ => some (digits, rest)

def readFraction? : List Char → Option (List Char × List Char)
  | '.' :: cs => do
    let (digits, rest) ← readDigits? cs
    return ('.' :: digits, rest)
  | cs => some ([], cs)

def readExponent? : List Char → Option (List Char × List Char)
  | e :: cs =>
    if e = 'e' || e = 'E' then
      match cs with
      | s :: ds =>
        if s = '+' || s = '-' then do
          let (digits, rest) ← readDigits? ds
          return (e :: s :: digits, rest)
        else do
          let (digits, rest) ← readDigits? cs
          return (e :: digits, rest)
      | [] => none
    else some ([], e :: cs)
  | [] => some ([], [])

def readNumber? (cs : List Char) : Option (Json × List Char) := do
  let (sign, cs) :=
    match cs with
    | '-' :: rest => (['-'], rest)
    | _ => ([], cs)
  let (integer, cs) ← readInteger? cs
  let (fraction, cs) ← readFraction? cs
  let (exponent, cs) ← readExponent? cs
  return (.number (String.ofList (sign ++ integer ++ fraction ++ exponent)), cs)

/-- A value that begins neither an array nor an object. -/
def readAtom? (cs : List Char) : Option (Json × List Char) :=
  match cs with
  | '"' :: rest => do
    let (text, rest) ← readString? rest
    return (.string text, rest)
  | 'n' :: rest => (Text.dropHead? "ull".toList rest).map (Json.null, ·)
  | 't' :: rest => (Text.dropHead? "rue".toList rest).map (Json.bool true, ·)
  | 'f' :: rest => (Text.dropHead? "alse".toList rest).map (Json.bool false, ·)
  | _ => readNumber? cs

mutual

/-- A value and what follows it. -/
def readValue? : (steps : Nat) → List Char → Option (Json × List Char)
  | 0, _ => none
  | steps + 1, cs =>
    match skipSpace cs with
    | '[' :: rest =>
      match skipSpace rest with
      | ']' :: rest => some (.array [], rest)
      | rest => do
        let (items, rest) ← readItems? steps rest
        return (.array items, rest)
    | '\x7b' :: rest =>
      match skipSpace rest with
      | '\x7d' :: rest => some (.object [], rest)
      | rest => do
        let (fields, rest) ← readFields? steps rest
        return (.object fields, rest)
    | cs => readAtom? cs

/-- The items of an array up to its closing bracket, at least one. -/
def readItems? : (steps : Nat) → List Char → Option (List Json × List Char)
  | 0, _ => none
  | steps + 1, cs => do
    let (item, rest) ← readValue? steps cs
    match skipSpace rest with
    | ']' :: rest => return ([item], rest)
    | ',' :: rest =>
      let (items, rest) ← readItems? steps rest
      return (item :: items, rest)
    | _ => none

/-- The fields of an object up to its closing brace, at least one. -/
def readFields? : (steps : Nat) → List Char → Option (List (Option String × Json) × List Char)
  | 0, _ => none
  | steps + 1, cs =>
    match skipSpace cs with
    | '"' :: rest => do
      let (name, rest) ← readString? rest
      match skipSpace rest with
      | ':' :: rest =>
        let (value, rest) ← readValue? steps rest
        match skipSpace rest with
        | '\x7d' :: rest => return ([(name, value)], rest)
        | ',' :: rest =>
          let (fields, rest) ← readFields? steps rest
          return ((name, value) :: fields, rest)
        | _ => none
      | _ => none
    | _ => none

end

/-- The value that a whole text is. -/
def read? (cs : List Char) : Option Json := do
  let (value, rest) ← readValue? (2 * cs.length + 1) cs
  if (skipSpace rest).isEmpty then some value else none

end SignatureInference.Json
