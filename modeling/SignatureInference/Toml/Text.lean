import SignatureInference.Json.Reader

/-! # TOML strings

The four kinds of strings: in double quotation marks with escapes, in single ones without, and both
over several lines in three marks. A string over several lines does not begin with the line feed
that follows its marks, and may end with one or two marks of its own.
-/
namespace SignatureInference.Toml

def isSpace (c : Char) : Bool := c == ' ' || c == '\t'

/-- A character other than the control characters; a tab is allowed. -/
def isPrintable (c : Char) : Bool := c == '\t' || (32 ≤ c.toNat && c.toNat != 127)

def scalar? (n : Nat) : Option Char :=
  if n < 0xD800 || (0xDFFF < n && n < 0x110000) then some (Char.ofNat n) else none

def hexNumber? (digits : List Char) : Option Nat :=
  digits.foldlM (fun n d => (Json.hexValue? d).map (n * 16 + ·)) 0

/-- What a letter after a backslash stands for. -/
def escaped? (c : Char) : Option Char :=
  if c = '"' || c = '\\' then some c
  else if c = 'b' then some (Char.ofNat 8)
  else if c = 'f' then some (Char.ofNat 12)
  else if c = 'n' then some '\n'
  else if c = 'r' then some '\r'
  else if c = 't' then some '\t'
  else none

/-- Puts a character in front of what is read after it. -/
def consRead (c : Char) (r : Option (List Char × List Char)) : Option (List Char × List Char) :=
  r.map fun (cs, rest) => (c :: cs, rest)

/-- A string with escapes after its opening mark. -/
def readBasic? : List Char → Option (List Char × List Char)
  | [] => none
  | '\\' :: 'u' :: a :: b :: c :: d :: cs => do
    let x ← (hexNumber? [a, b, c, d]).bind scalar?
    consRead x (readBasic? cs)
  | '\\' :: 'U' :: a :: b :: c :: d :: e :: f :: g :: h :: cs => do
    let x ← (hexNumber? [a, b, c, d, e, f, g, h]).bind scalar?
    consRead x (readBasic? cs)
  | '\\' :: e :: cs => do
    let x ← escaped? e
    consRead x (readBasic? cs)
  | c :: cs =>
    if c = '"' then some ([], cs)
    else if c = '\\' || !isPrintable c then none
    else consRead c (readBasic? cs)

/-- A string without escapes after its opening mark. -/
def readLiteral? : List Char → Option (List Char × List Char)
  | [] => none
  | c :: cs =>
    if c = '\'' then some ([], cs)
    else if isPrintable c then consRead c (readLiteral? cs)
    else none

/-- The end of a string over several lines, at the first three marks: up to two of the marks that
stand together belong to the string. -/
def readClosing? (mark : Char) (cs : List Char) : Option (List Char × List Char) :=
  let marks := (cs.takeWhile (· == mark)).length
  if marks < 3 then none
  else
    let own := min (marks - 3) 2
    some (List.replicate own mark, cs.drop (own + 3))

def lineEndsHere (cs : List Char) : Bool :=
  match cs.dropWhile isSpace with
  | '\n' :: _ => true
  | '\r' :: '\n' :: _ => true
  | _ => false

/-- A string with escapes over several lines after its opening marks. A backslash at the end of a
line skips to the next character that is no blank. -/
def readMultiBasic? (skipping : Bool) : List Char → Option (List Char × List Char)
  | [] => none
  | '\r' :: '\n' :: cs =>
    if skipping then readMultiBasic? true cs else consRead '\n' (readMultiBasic? false cs)
  | '\\' :: 'u' :: a :: b :: c :: d :: cs => do
    let x ← (hexNumber? [a, b, c, d]).bind scalar?
    consRead x (readMultiBasic? false cs)
  | '\\' :: 'U' :: a :: b :: c :: d :: e :: f :: g :: h :: cs => do
    let x ← (hexNumber? [a, b, c, d, e, f, g, h]).bind scalar?
    consRead x (readMultiBasic? false cs)
  | '\\' :: e :: cs =>
    if lineEndsHere (e :: cs) then readMultiBasic? true (e :: cs)
    else do
      let x ← escaped? e
      consRead x (readMultiBasic? false cs)
  | c :: cs =>
    if c = '\n' then
      if skipping then readMultiBasic? true cs else consRead '\n' (readMultiBasic? false cs)
    else if skipping && isSpace c then readMultiBasic? true cs
    else
      match readClosing? '"' (c :: cs) with
      | some closing => some closing
      | none => if isPrintable c && c != '\\' then consRead c (readMultiBasic? false cs) else none

def readMultiLiteral? : List Char → Option (List Char × List Char)
  | [] => none
  | '\r' :: '\n' :: cs => consRead '\n' (readMultiLiteral? cs)
  | c :: cs =>
    match readClosing? '\'' (c :: cs) with
    | some closing => some closing
    | none => if isPrintable c || c = '\n' then consRead c (readMultiLiteral? cs) else none

def dropNewLine (cs : List Char) : List Char :=
  match cs with
  | '\n' :: rest => rest
  | '\r' :: '\n' :: rest => rest
  | _ => cs

def readLineString? : List Char → Option (List Char × List Char)
  | '"' :: cs => readBasic? cs
  | '\'' :: cs => readLiteral? cs
  | _ => none

def readString? : List Char → Option (List Char × List Char)
  | '"' :: '"' :: '"' :: cs => readMultiBasic? false (dropNewLine cs)
  | '\'' :: '\'' :: '\'' :: cs => readMultiLiteral? (dropNewLine cs)
  | cs => readLineString? cs

end SignatureInference.Toml
