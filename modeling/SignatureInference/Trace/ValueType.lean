import SignatureInference.Trace.FunctionName
import SignatureInference.TypeValue

/-! # Types of traced values

A trace prints a value either in full or only by its kind and size. Both forms tell its type, and
every text has one: what is nothing else is taken for the name of a class or left unresolved.
-/
namespace SignatureInference.Trace

/-- Whether a text is one line between two characters. -/
def isBetween (first last : Char) (cs : List Char) : Bool :=
  match cs with
  | [] => false
  | c :: rest => c == first && rest.getLast? == some last && !rest.contains '\n'

/-- Whether a text consists of decimal digits, at least one. -/
def isDigits (cs : List Char) : Bool := !cs.isEmpty && cs.all Text.isDecimalDigit

def dropMinus (cs : List Char) : List Char := (Text.dropHead? ['-'] cs).getD cs

def isOneOf (words : List String) (cs : List Char) : Bool := words.contains (String.ofList cs)

def isOneOfFolded (words : List String) (cs : List Char) : Bool :=
  words.any fun w => Text.dropWord? w.toList cs == some []

/-- A string in quotation marks, or its length. -/
def isStringValue (cs : List Char) : Bool :=
  isBetween '\'' '\'' cs || isBetween '"' '"' cs ||
    ((Text.dropHead? "string(".toList cs).bind (Text.dropLast? [')'])).any isDigits

/-- An array in brackets, or its size. -/
def isArrayValue (cs : List Char) : Bool :=
  isBetween '[' ']' cs ||
    (Text.dropHead? "array".toList cs).any fun rest => isBetween '(' ')' (Text.trimStart rest)

/-- A closure, by its class or by its name. -/
def isClosureValue (cs : List Char) : Bool :=
  (Text.dropHead? "class Closure".toList cs).any (fun rest => !rest.head?.any Text.isWordChar) ||
    Text.contains FunctionName.closureMark cs

def isIntegerValue (cs : List Char) : Bool :=
  isOneOf ["long", "int"] cs || isDigits (dropMinus cs)

def isExponent : List Char → Bool
  | e :: cs =>
    (e == 'e' || e == 'E') &&
      match cs with
      | s :: ds => if s == '+' || s == '-' then isDigits ds else isDigits cs
      | [] => false
  | [] => false

/-- A number with a point or an exponent, or its kind. -/
def isFloatValue (cs : List Char) : Bool :=
  let unsigned := dropMinus cs
  let integer := unsigned.takeWhile Text.isDecimalDigit
  let rest := unsigned.dropWhile Text.isDecimalDigit
  isOneOf ["double", "float", "NAN"] cs || isOneOf ["INF"] unsigned ||
    (!integer.isEmpty &&
      match rest with
      | '.' :: fraction =>
        let exponent := fraction.dropWhile Text.isDecimalDigit
        exponent.isEmpty || isExponent exponent
      | _ => isExponent rest)

/-- The name of the class in the dump of an object. -/
def objectClass? (cs : List Char) : Option (List Char) := do
  let rest ← Text.dropHead? "class".toList cs
  let rest ← Text.dropBlanks? rest
  let (lead, name) :=
    match rest with
    | '\\' :: name => (['\\'], name)
    | _ => ([], rest)
  if name.head?.any Text.isIdentStart then
    some (lead ++ name.takeWhile fun c => Text.isIdentPart c || c == '\\')
  else none

def objectType (name : List Char) : TypeValue :=
  match FunctionName.read? (String.ofList name) with
  | some ⟨space, _, short, .function⟩ => .object space short
  | _ => .unresolvedWith .none ("unrecognized value: " ++ String.ofList name)

def valueType (raw : String) : TypeValue :=
  let cs := Text.trim raw.toList
  if isStringValue cs then .scalar .string
  else if isArrayValue cs then .array
  else if isClosureValue cs then .callable
  else if isOneOfFolded ["bool", "true", "false"] cs then .scalar .bool
  else if isIntegerValue cs then .scalar .int
  else if isFloatValue cs then .scalar .float
  else if isOneOfFolded ["null"] cs then .unresolved .none
  else objectType ((objectClass? cs).getD cs)

end SignatureInference.Trace
