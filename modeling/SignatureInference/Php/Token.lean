import SignatureInference.Text.Basic

/-! # PHP tokens

A PHP file is text for output with sections of code in it. Code is read token by token; blanks and
comments stand between tokens. A name with backslashes in it is one token, and so is a string, also
one with expressions in it, and a heredoc.
-/
namespace SignatureInference.Php

inductive TokenKind where
  /-- Text outside of code. -/
  | output
  | openTag
  | openEchoTag
  | closeTag
  | variable
  /-- A name without backslashes, or a keyword. -/
  | word
  /-- A name with backslashes. -/
  | qualified
  | number
  | string
  | symbol
  /-- The place where no token begins. Nothing is read after it. -/
  | broken
  deriving DecidableEq, Repr

structure Token where
  kind : TokenKind
  text : String
  start : Nat
  stop : Nat
  deriving DecidableEq, Repr

/-- A character that can begin a name: a letter, an underscore, anything beyond ASCII. -/
def isNameStart (c : Char) : Bool := Text.isIdentStart c || 0x80 ≤ c.toNat

def isNamePart (c : Char) : Bool := Text.isIdentPart c || 0x80 ≤ c.toNat

def isSpace (c : Char) : Bool :=
  c == ' ' || c == '\t' || c == '\n' || c == '\r' || c.toNat == 11 || c.toNat == 12

/-- The length of a name that a text begins with, backslashes between its parts included. The flag
says that a part of the name may begin here. -/
def nameLength (mayBegin : Bool) : List Char → Nat
  | [] => 0
  | c :: cs =>
    if c = '\\' then
      match cs with
      | d :: _ => if isNameStart d && !mayBegin then nameLength true cs + 1 else 0
      | [] => 0
    else if (if mayBegin then isNameStart c else isNamePart c) then nameLength false cs + 1
    else 0

/-- What encloses a place inside a string. -/
inductive Enclosure where
  /-- A string in which expressions are evaluated, with its quote. -/
  | quoted (quote : Char)
  /-- A string taken literally. -/
  | literal
  /-- The braces of an expression. -/
  | braces
  deriving DecidableEq, Repr

/-- The number of characters up to the end of the outermost string. -/
def stringLength? (enclosing : List Enclosure) : List Char → Option Nat
  | [] => if enclosing.isEmpty then some 0 else none
  | c :: cs =>
    match enclosing with
    | [] => some 0
    | .literal :: outer =>
      if c = '\\' then
        match cs with
        | [] => none
        | _ :: ds => (stringLength? enclosing ds).map (· + 2)
      else (stringLength? (if c = '\'' then outer else enclosing) cs).map (· + 1)
    | .quoted quote :: outer =>
      if c = '\\' then
        match cs with
        | [] => none
        | _ :: ds => (stringLength? enclosing ds).map (· + 2)
      else if c = quote then (stringLength? outer cs).map (· + 1)
      else if c = '\x7b' && cs.head? == some '$' then
        (stringLength? (.braces :: enclosing) cs).map (· + 1)
      else if c = '$' then
        match cs with
        | [] => none
        | d :: ds =>
          if d = '\x7b' then (stringLength? (.braces :: enclosing) ds).map (· + 2)
          else (stringLength? enclosing (d :: ds)).map (· + 1)
      else (stringLength? enclosing cs).map (· + 1)
    | .braces :: outer =>
      let inner :=
        if c = '\x7b' then .braces :: enclosing
        else if c = '\x7d' then outer
        else if c = '\'' then .literal :: enclosing
        else if c = '"' || c = '\x60' then .quoted c :: enclosing
        else enclosing
      (stringLength? inner cs).map (· + 1)

/-- The number of characters up to the end of the label that closes a heredoc. -/
def heredocBodyLength? (label : List Char) (atLineStart : Bool) : List Char → Option Nat
  | [] => none
  | c :: cs =>
    let indented := (c :: cs).dropWhile fun d => d == ' ' || d == '\t'
    let closes :=
      match Text.dropHead? label indented with
      | some (d :: _) => !isNamePart d
      | some [] => true
      | none => false
    if atLineStart && closes then some ((c :: cs).length - indented.length + label.length)
    else (heredocBodyLength? label (c == '\n') cs).map (· + 1)

/-- The length of a heredoc, given what follows its three angle brackets. -/
def heredocLength? (cs : List Char) : Option Nat :=
  let opening := cs.dropWhile fun c => c == ' ' || c == '\t'
  let quote := opening.head?.filter fun c => c == '\'' || c == '"'
  let unquoted := if quote.isSome then opening.drop 1 else opening
  let label := unquoted.takeWhile isNamePart
  let rest := unquoted.dropWhile isNamePart
  let rest := if quote.isSome then (if rest.head? == quote then rest.drop 1 else []) else rest
  if label.isEmpty || !isNameStart (label.headD ' ') then none
  else
    let rest := Text.dropHead? ['\r'] rest |>.getD rest
    match rest with
    | '\n' :: body =>
      (heredocBodyLength? label true body).map (· + (cs.length - body.length))
    | _ => none

/-- The length of a comment that ends with its line or its section of code. -/
def lineCommentLength : List Char → Nat
  | [] => 0
  | '\n' :: _ => 0
  | '?' :: '>' :: _ => 0
  | _ :: cs => lineCommentLength cs + 1

/-- The length of what is left of a comment in asterisks. -/
def blockCommentLength? : List Char → Option Nat
  | [] => none
  | '*' :: '/' :: _ => some 2
  | _ :: cs => (blockCommentLength? cs).map (· + 1)

def exponentLength (cs : List Char) : Nat :=
  match cs with
  | e :: s :: d :: ds =>
    if e == 'e' || e == 'E' then
      if s.isDigit then (cs.drop 1).takeWhile (fun c => c.isDigit || c == '_') |>.length |> (· + 1)
      else if (s == '+' || s == '-') && d.isDigit then
        ((d :: ds).takeWhile fun c => c.isDigit || c == '_').length + 2
      else 0
    else 0
  | [e, d] => if (e == 'e' || e == 'E') && d.isDigit then 2 else 0
  | _ => 0

def numberLength (cs : List Char) : Nat :=
  let digits := (cs.takeWhile fun c => c.isDigit || c == '_').length
  match cs with
  | '0' :: x :: d :: ds =>
    if (x == 'x' || x == 'X' || x == 'b' || x == 'B' || x == 'o' || x == 'O') && d.isAlphanum then
      ((d :: ds).takeWhile fun c => c.isAlphanum || c == '_').length + 2
    else decimal digits cs
  | _ => decimal digits cs
where
  decimal (digits : Nat) (cs : List Char) : Nat :=
    match cs.drop digits with
    | '.' :: rest =>
      let fraction := (rest.takeWhile fun c => c.isDigit || c == '_').length
      if digits == 0 && fraction == 0 then 0
      else digits + 1 + fraction + exponentLength (rest.drop fraction)
    | rest => digits + exponentLength rest

/-- The symbols of more than one character, longer ones first. -/
def longSymbols : List String :=
  ["===", "!==", "<=>", "**=", "...", "<<=", ">>=", "??=", "?->", "==", "!=", "<>",
    "<=", ">=", "&&",
   "||", "??", "++", "--", "+=", "-=", "*=", "/=", ".=", "%=", "&=", "|=", "^=", "->", "=>", "::",
   "<<", ">>", "**", "|>", "#["]

def shortSymbols : List Char :=
  [';', ',', '(', ')', '[', ']', '\x7b', '\x7d', '=', '+', '-', '*', '/', '%', '.', '<',
    '>', '!', '?',
   ':', '&', '|', '^', '~', '@', '$', '\\']

def symbolLength? (cs : List Char) : Option Nat :=
  match longSymbols.find? fun s => Text.startsWith s.toList cs with
  | some s => some s.length
  | none =>
    match cs with
    | c :: _ => if shortSymbols.contains c then some 1 else none
    | [] => none

/-- What a section of code goes on with. -/
inductive Piece where
  | token (kind : TokenKind) (length : Nat)
  /-- Blanks or a comment. -/
  | gap (length : Nat)
  deriving DecidableEq, Repr

/-- Reads the next piece of a section of code, if there is a proper one. -/
def nextPiece? (cs : List Char) : Option Piece :=
  match cs with
  | [] => none
  | '?' :: '>' :: _ => some (.token .closeTag 2)
  | '/' :: '/' :: _ => some (.gap (lineCommentLength cs))
  | '/' :: '*' :: rest => (blockCommentLength? rest).map fun n => .gap (n + 2)
  | '#' :: '[' :: _ => some (.token .symbol 2)
  | '#' :: _ => some (.gap (lineCommentLength cs))
  | '\'' :: rest => (stringLength? [.literal] rest).map fun n => .token .string (n + 1)
  | '"' :: rest => (stringLength? [.quoted '"'] rest).map fun n => .token .string (n + 1)
  | '\x60' :: rest => (stringLength? [.quoted '\x60'] rest).map fun n => .token .string (n + 1)
  | c :: rest =>
    if isSpace c then some (.gap (cs.takeWhile isSpace).length)
    else if c = '$' && (rest.head?.any isNameStart) then
      some (.token .variable ((rest.takeWhile isNamePart).length + 1))
    else if isNameStart c then
      let length := nameLength true cs
      let kind := if (cs.take length).contains '\\' then TokenKind.qualified else .word
      some (.token kind length)
    else if c = '\\' && (rest.head?.any isNameStart) then
      some (.token .qualified (nameLength true rest + 1))
    else if c.isDigit || (c = '.' && rest.head?.any (·.isDigit)) then
      some (.token .number (numberLength cs))
    else
      match Text.dropHead? "<<<".toList cs >>= heredocLength? with
      | some n => some (.token .string (n + 3))
      | none => (symbolLength? cs).map fun n => .token .symbol n

/-- The length of the text for output that a file goes on with. -/
def outputLength : List Char → Nat
  | [] => 0
  | '<' :: '?' :: _ => 0
  | _ :: cs => outputLength cs + 1

def openTag? : List Char → Option (TokenKind × Nat)
  | '<' :: '?' :: '=' :: _ => some (.openEchoTag, 3)
  | '<' :: '?' :: p :: h :: q :: _ =>
    if p.toLower == 'p' && h.toLower == 'h' && q.toLower == 'p' then some (.openTag, 5)
    else some (.openTag, 2)
  | '<' :: '?' :: _ => some (.openTag, 2)
  | _ => none

def fileNext? (inCode : Bool) (cs : List Char) : Option Piece :=
  if inCode then nextPiece? cs
  else
    match openTag? cs with
    | some (kind, length) => some (.token kind length)
    | none => some (.token .output (outputLength cs))

/-- Whether a file goes on inside code after a token. -/
def codeAfter (inCode : Bool) : TokenKind → Bool
  | .openTag | .openEchoTag => true
  | .closeTag => false
  | _ => inCode

/-- The tokens of the rest of a file. The rest begins at offset `pos`, and its first `skip`
characters belong to what was read already. -/
def tokensFrom (inCode : Bool) (pos skip : Nat) : List Char → List Token
  | [] => []
  | c :: cs =>
    match skip with
    | skip + 1 => tokensFrom inCode (pos + c.utf8Size) skip cs
    | 0 =>
      match fileNext? inCode (c :: cs) with
      | none => [⟨.broken, "", pos, pos⟩]
      | some (.gap length) => tokensFrom inCode (pos + c.utf8Size) (length - 1) cs
      | some (.token kind length) =>
        let text := (c :: cs).take length
        ⟨kind, String.ofList text, pos, pos + Text.byteLength text⟩ ::
          tokensFrom (codeAfter inCode kind) (pos + c.utf8Size) (length - 1) cs

def tokens (source : String) : List Token := tokensFrom false 0 0 source.toList

end SignatureInference.Php
