import SignatureInference.Json.Value

/-! # Writing JSON

Quotation marks, backslashes and control characters are escaped, all other characters stand for
themselves. A value is written either without any space or over lines that are indented by two
spaces for each level.
-/
namespace SignatureInference.Json

def hexDigit (n : Nat) : Char :=
  if n < 10 then Char.ofNat ('0'.toNat + n) else Char.ofNat ('a'.toNat + n - 10)

/-- A character inside a string. -/
def escape (c : Char) : List Char :=
  if c = '"' then ['\\', '"']
  else if c = '\\' then ['\\', '\\']
  else if c = '\n' then ['\\', 'n']
  else if c = '\r' then ['\\', 'r']
  else if c = '\t' then ['\\', 't']
  else if c.toNat = 8 then ['\\', 'b']
  else if c.toNat = 12 then ['\\', 'f']
  else if c.toNat < 32 then ['\\', 'u', '0', '0', hexDigit (c.toNat / 16), hexDigit (c.toNat % 16)]
  else [c]

/-- A string with its quotation marks. A string that is no text becomes a replacement character. -/
def quote (text : Option String) : List Char :=
  '"' :: (text.getD "�").toList.flatMap escape ++ ['"']

mutual

/-- A value without spaces. -/
def compact : Json → List Char
  | .null => "null".toList
  | .bool b => (if b then "true" else "false").toList
  | .number literal => literal.toList
  | .string text => quote text
  | .array [] => "[]".toList
  | .array (item :: items) => '[' :: compact item ++ compactItems items ++ [']']
  | .object [] => "\x7b\x7d".toList
  | .object ((name, value) :: fields) =>
    '\x7b' :: quote name ++ ':' :: compact value ++ compactFields fields ++ ['\x7d']

/-- The items of an array after the first. -/
def compactItems : List Json → List Char
  | [] => []
  | item :: items => ',' :: compact item ++ compactItems items

/-- The fields of an object after the first. -/
def compactFields : List (Option String × Json) → List Char
  | [] => []
  | (name, value) :: fields => ',' :: quote name ++ ':' :: compact value ++ compactFields fields

end

def newLine (level : Nat) : List Char := '\n' :: List.replicate (2 * level) ' '

mutual

/-- A value over several lines, where its first line is at the given level. -/
def pretty (level : Nat) : Json → List Char
  | .null => "null".toList
  | .bool b => (if b then "true" else "false").toList
  | .number literal => literal.toList
  | .string text => quote text
  | .array [] => "[]".toList
  | .array (item :: items) =>
    '[' :: newLine (level + 1) ++ pretty (level + 1) item ++ prettyItems (level + 1) items ++
      newLine level ++ [']']
  | .object [] => "\x7b\x7d".toList
  | .object ((name, value) :: fields) =>
    '\x7b' :: newLine (level + 1) ++ quote name ++ ':' :: ' ' :: pretty (level + 1) value ++
      prettyFields (level + 1) fields ++ newLine level ++ ['\x7d']

def prettyItems (level : Nat) : List Json → List Char
  | [] => []
  | item :: items => ',' :: newLine level ++ pretty level item ++ prettyItems level items

def prettyFields (level : Nat) : List (Option String × Json) → List Char
  | [] => []
  | (name, value) :: fields =>
    ',' :: newLine level ++ quote name ++ ':' :: ' ' :: pretty level value ++
      prettyFields level fields

end

end SignatureInference.Json
