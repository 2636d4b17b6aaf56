import SignatureInference.Toml.Number
import SignatureInference.Toml.Text

/-! # TOML documents

A document is a sequence of headers and pairs of key and value. A pair belongs to the table of the
header before it.
-/
namespace SignatureInference.Toml

/-- What a line of a document says. -/
inductive Statement where
  | pair (path : List String) (key : String) (item : Item)
  | header (path : List String) (key : String)
  | elementHeader (path : List String) (key : String)
  deriving Repr

/-- How deep values may be nested, and how many parts a key may have. -/
def nestingLimit : Nat := 80

def skipSpace (cs : List Char) : List Char := cs.dropWhile isSpace

/-- Drops the blanks and the comment up to the end of a line, which has to follow. -/
def endLine? (cs : List Char) : Option (List Char) :=
  let cs := skipSpace cs
  let cs := if cs.head? == some '#' then cs.dropWhile isPrintable else cs
  match cs with
  | [] => some []
  | '\n' :: rest => some rest
  | '\r' :: '\n' :: rest => some rest
  | _ => none

/-- Drops blanks, comments and line endings. -/
def skipLines : (steps : Nat) → List Char → List Char
  | 0, cs => cs
  | steps + 1, cs =>
    let cs := skipSpace cs
    match cs with
    | [] => []
    | c :: _ =>
      if c == '#' || c == '\n' || c == '\r' then
        match endLine? cs with
        | some [] => if c == '#' then cs else []
        | some rest => skipLines steps rest
        | none => cs
      else cs

def readKeyPart? (cs : List Char) : Option (String × List Char) :=
  let isBare := fun c : Char => c.isAlphanum || c == '-' || c == '_'
  if cs.head?.any fun c => c == '"' || c == '\'' then
    (readLineString? cs).map fun (key, rest) => (String.ofList key, rest)
  else
    match cs.takeWhile isBare with
    | [] => none
    | key => some (String.ofList key, cs.dropWhile isBare)

/-- A key with at most `parts` parts, which are joined by dots. -/
def readKeyParts? : (parts : Nat) → List Char → Option (List String × List Char)
  | 0, _ => none
  | parts + 1, cs => do
    let (key, rest) ← readKeyPart? (skipSpace cs)
    match skipSpace rest with
    | '.' :: rest =>
      let (keys, rest) ← readKeyParts? parts rest
      return (key :: keys, rest)
    | rest => return ([key], rest)

/-- A key, as the path to a table and the key in it. -/
def readKey? (cs : List Char) : Option ((List String × String) × List Char) := do
  let (keys, rest) ← readKeyParts? (nestingLimit - 1) cs
  return ((keys.dropLast, ← keys.getLast?), rest)

mutual

/-- A value inside `depth` others. -/
def readValue? : (steps depth : Nat) → List Char → Option (Item × List Char)
  | 0, _, _ => none
  | steps + 1, depth, cs =>
    match cs with
    | [] => none
    | '[' :: rest =>
      if nestingLimit ≤ depth + 1 then none
      else do
        let (items, rest) ← readItems? steps (depth + 1) rest
        return (.array items, rest)
    | '\x7b' :: rest =>
      if nestingLimit ≤ depth + 1 then none
      else
        match skipSpace rest with
        | '\x7d' :: rest => some (.inline [], rest)
        | rest => do
          let (fields, rest) ← readPairs? steps (depth + 1) [] rest
          return (.inline fields, rest)
    | 't' :: rest => (Text.dropHead? "rue".toList rest).map (.boolean true, ·)
    | 'f' :: rest => (Text.dropHead? "alse".toList rest).map (.boolean false, ·)
    | c :: _ =>
      if c == '"' || c == '\'' then
        (readString? cs).map fun (text, rest) => (.string (String.ofList text), rest)
      else readNumber? cs

/-- The items of an array up to its closing bracket. A comma may stand after the last one. -/
def readItems? : (steps depth : Nat) → List Char → Option (List Item × List Char)
  | 0, _, _ => none
  | steps + 1, depth, cs =>
    match skipLines cs.length cs with
    | ']' :: rest => some ([], rest)
    | cs => do
      let (item, rest) ← readValue? steps depth cs
      match skipLines rest.length rest with
      | ']' :: rest => return ([item], rest)
      | ',' :: rest =>
        let (items, rest) ← readItems? steps depth rest
        return (item :: items, rest)
      | _ => none

/-- The pairs of a table in braces up to the closing brace, at least one, added to those before. -/
def readPairs? : (steps depth : Nat) → Fields → List Char → Option (Fields × List Char)
  | 0, _, _, _ => none
  | steps + 1, depth, fields, cs => do
    let ((path, key), rest) ← readKey? cs
    let rest ← Text.dropHead? ['='] rest
    let (item, rest) ← readValue? steps depth (skipSpace rest)
    let fields ← fields.addPair path key item
    match skipSpace rest with
    | '\x7d' :: rest => return (fields, rest)
    | ',' :: rest => readPairs? steps depth fields rest
    | _ => none

end

def readStatement? (cs : List Char) : Option (Statement × List Char) :=
  match cs with
  | '[' :: '[' :: rest => do
    let ((path, key), rest) ← readKey? rest
    let rest ← Text.dropHead? "]]".toList rest
    return (.elementHeader path key, ← endLine? rest)
  | '[' :: rest => do
    let ((path, key), rest) ← readKey? rest
    let rest ← Text.dropHead? [']'] rest
    return (.header path key, ← endLine? rest)
  | _ => do
    let ((path, key), rest) ← readKey? cs
    let rest ← Text.dropHead? ['='] rest
    let (item, rest) ← readValue? (2 * cs.length + 1) 0 (skipSpace rest)
    return (.pair path key item, ← endLine? rest)

/-- The statements of a document. Each takes a character at least. -/
def readStatements? : (steps : Nat) → List Char → Option (List Statement)
  | 0, _ => none
  | steps + 1, cs =>
    match skipSpace cs with
    | [] => some []
    | c :: cs =>
      if c == '#' || c == '\n' || c == '\r' then (endLine? (c :: cs)).bind (readStatements? steps)
      else do
        let (statement, rest) ← readStatement? (c :: cs)
        let statements ← readStatements? steps rest
        return statement :: statements

/-- Adds a statement to the tables of a document, in which `place` is the table of the last
header. -/
def addStatement (state : Fields × List String) : Statement → Option (Fields × List String)
  | .pair path key item => (state.1.addPairAt state.2 path key item).map (·, state.2)
  | .header path key => (state.1.addTable path key).map (·, path ++ [key])
  | .elementHeader path key => (state.1.addElement path key).map (·, path ++ [key])

/-- The tables of a document. A mark of the byte order in front does not count. -/
def read? (text : String) : Option Fields := do
  let cs := text.toList
  let cs := if cs.head?.any (·.toNat == 0xFEFF) then cs.drop 1 else cs
  let statements ← readStatements? (cs.length + 1) cs
  let (fields, _) ← statements.foldlM addStatement ([], [])
  return fields

end SignatureInference.Toml
