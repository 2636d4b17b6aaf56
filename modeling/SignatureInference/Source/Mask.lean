import SignatureInference.Text.Basic

/-! # Masked sources

The masked copy of a PHP source has blanks in place of its comments and attributes and of the
contents of its strings, so that what looks like a declaration in there is not taken for one. Line
feeds stay, and a character of several bytes becomes as many blanks, so that every offset of the
masked copy is an offset of the source.

At each place between tokens a plan is made for the characters of the next token, one mark for each,
and the plan is carried out before the next one is made.
-/
namespace SignatureInference.Source

/-- What masking does with one character. -/
inductive Ink where
  | keep
  | blank
  /-- Only the last byte is kept. For a character of several bytes that leaves no character. -/
  | lastByte
  deriving DecidableEq, Repr

def Ink.apply (c : Char) : Ink → Option (List Char)
  | keep => some [c]
  | blank => some (if c = '\n' then [c] else List.replicate c.utf8Size ' ')
  | lastByte => if c.utf8Size = 1 then some [c] else none

/-- The length of a comment that ends with its line or its PHP section. -/
def lineCommentLength : List Char → Nat
  | [] => 0
  | '\n' :: _ => 0
  | '?' :: '>' :: _ => 0
  | _ :: cs => lineCommentLength cs + 1

/-- The length of what is left of a comment, with its closing mark. -/
def blockCommentLength : List Char → Nat
  | [] => 0
  | '*' :: '/' :: _ => 2
  | _ :: cs => blockCommentLength cs + 1

/-- The marks for what follows an opening quote, up to the closing one. A backslash protects the
character after it. A string without an end keeps its last byte. -/
def stringPlan (quote : Char) : List Char → List Ink
  | [] => []
  | [c] => if c = quote then [.keep] else [.lastByte]
  | c :: d :: cs =>
    if c = '\\' then
      match cs with
      | [] => [.blank, .lastByte]
      | _ => .blank :: .blank :: stringPlan quote cs
    else if c = quote then [.keep]
    else .blank :: stringPlan quote (d :: cs)

/-- The length of what is left of an attribute, `depth` brackets deep and perhaps inside a
string. -/
def attributeLength (depth : Nat) (quote : Option Char) : List Char → Nat
  | [] => 0
  | c :: cs =>
    match quote with
    | some q =>
      if c = '\\' then
        match cs with
        | [] => 1
        | _ :: ds => attributeLength depth (some q) ds + 2
      else attributeLength depth (if c = q then none else some q) cs + 1
    | none =>
      if c = '[' then attributeLength (depth + 1) none cs + 1
      else if c = ']' then
        if depth ≤ 1 then 1 else attributeLength (depth - 1) none cs + 1
      else attributeLength depth (if c = '\'' || c = '"' then some c else none) cs + 1

/-- Whether a line that goes on with `cs` ends the heredoc with the given label. -/
def closesHeredoc (label cs : List Char) : Bool :=
  match Text.dropHead? label cs with
  | some (c :: _) => !Text.isIdentPart c
  | some [] => true
  | none => false

def isIndent (c : Char) : Bool := c == ' ' || c == '\t'

/-- The marks for the body of a heredoc, and for the label that closes it. -/
def heredocBodyPlan (label : List Char) (atLineStart : Bool) : List Char → List Ink
  | [] => []
  | c :: cs =>
    if atLineStart && closesHeredoc label ((c :: cs).dropWhile isIndent) then
      List.replicate ((c :: cs).takeWhile isIndent).length .blank ++
        List.replicate label.length .keep
    else .blank :: heredocBodyPlan label (c == '\n') cs

/-- The marks for what follows the three angle brackets of a heredoc. Without a label they open
none. -/
def heredocPlan (cs : List Char) : List Ink :=
  let unquoted :=
    match cs.dropWhile isIndent with
    | c :: ds => if c = '\'' || c = '"' then ds else c :: ds
    | [] => []
  let label := unquoted.takeWhile Text.isIdentPart
  if label = [] then []
  else
    match unquoted.dropWhile (· != '\n') with
    | [] => List.replicate cs.length .keep
    | _ :: body =>
      List.replicate (cs.length - body.length) .keep ++ heredocBodyPlan label true body

/-- The marks for the token at the beginning of a text; none stand for a single character to
keep. -/
def plan : List Char → List Ink
  | '/' :: '/' :: cs => List.replicate (lineCommentLength ('/' :: '/' :: cs)) .blank
  | '#' :: '[' :: cs => List.replicate (attributeLength 1 none cs + 2) .blank
  | '#' :: cs => List.replicate (lineCommentLength cs + 1) .blank
  | '/' :: '*' :: cs => List.replicate (blockCommentLength cs + 2) .blank
  | '\'' :: cs => .keep :: stringPlan '\'' cs
  | '"' :: cs => .keep :: stringPlan '"' cs
  | '\x60' :: cs => .keep :: stringPlan '\x60' cs
  | '<' :: '<' :: '<' :: cs => .keep :: .keep :: .keep :: heredocPlan cs
  | _ => []

/-- The mark for the first character of a text, and what is left of the plan after it. -/
def nextInk (pending : List Ink) (cs : List Char) : Ink × List Ink :=
  match pending with
  | ink :: inks => (ink, inks)
  | [] =>
    match plan cs with
    | ink :: inks => (ink, inks)
    | [] => (.keep, [])

def maskFrom? (pending : List Ink) : List Char → Option (List Char)
  | [] => some []
  | c :: cs => do
    let shown ← (nextInk pending (c :: cs)).1.apply c
    let rest ← maskFrom? (nextInk pending (c :: cs)).2 cs
    return shown ++ rest

/-- The masked copy of a source, unless it would leave a part of a character. -/
def mask? (source : List Char) : Option (List Char) := maskFrom? [] source

/-- The masked copy of a source, or the source itself if it cannot be masked. -/
def mask (source : List Char) : List Char := (mask? source).getD source

end SignatureInference.Source
