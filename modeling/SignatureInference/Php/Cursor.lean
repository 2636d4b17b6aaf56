import SignatureInference.Php.Token

/-! # Reading along tokens

A cursor stands between two tokens: it has the tokens that are left and the offset where the last
one read ended.
-/
namespace SignatureInference.Php

namespace Token

/-- The text of a keyword in lower case. Only ASCII letters have case here. -/
def keyword (t : Token) : String := String.ofList (t.text.toList.map Char.toLower)

def isSymbol (t : Token) (s : String) : Bool := t.kind == .symbol && t.text == s

/-- Whether a token is the given word, in any case. -/
def isWord (t : Token) (w : String) : Bool := t.kind == .word && t.keyword == w

def isOneOf (t : Token) (ws : List String) : Bool := t.kind == .word && ws.contains t.keyword

/-- Whether a token can name something. -/
def isName (t : Token) : Bool := t.kind == .word || t.kind == .qualified

end Token

structure Span where
  start : Nat
  stop : Nat
  deriving DecidableEq, Repr

/-- The tokens left to read. -/
structure Cursor where
  rest : List Token
  /-- Where the last token read ended. -/
  stop : Nat
  deriving DecidableEq, Repr

namespace Cursor

def peek? (c : Cursor) : Option Token := c.rest.head?

/-- The token after the next one. -/
def second? (c : Cursor) : Option Token := c.rest[1]?

def skip (c : Cursor) : Cursor :=
  match c.rest with
  | [] => c
  | t :: ts => ⟨ts, t.stop⟩

def atEnd (c : Cursor) : Bool := c.rest.isEmpty

def atSymbol (c : Cursor) (s : String) : Bool := c.peek?.any (·.isSymbol s)

def atWord (c : Cursor) (w : String) : Bool := c.peek?.any (·.isWord w)

def atOneOf (c : Cursor) (ws : List String) : Bool := c.peek?.any (·.isOneOf ws)

def atKind (c : Cursor) (k : TokenKind) : Bool := c.peek?.any (·.kind == k)

/-- Passes the given symbol, which has to come next. -/
def symbol (c : Cursor) (s : String) : Option Cursor := if c.atSymbol s then some c.skip else none

def word (c : Cursor) (w : String) : Option Cursor := if c.atWord w then some c.skip else none

def symbolIf (c : Cursor) (s : String) : Cursor := if c.atSymbol s then c.skip else c

def token (c : Cursor) (k : TokenKind) : Option Cursor := if c.atKind k then some c.skip else none

def name (c : Cursor) : Option Cursor := if c.peek?.any (·.isName) then some c.skip else none

/-- Passes the end of a statement: a semicolon, or the end of the section of code. -/
def terminator (c : Cursor) : Option Cursor :=
  if c.atSymbol ";" || c.atKind .closeTag then some c.skip else none

/-- Where the next token begins. -/
def start (c : Cursor) : Nat :=
  match c.rest with
  | t :: _ => t.start
  | [] => c.stop

/-- The span from the token after this cursor to the token before a later one. -/
def spanTo (c later : Cursor) : Span := ⟨c.start, later.stop⟩

def skipWords (ws : List String) (c : Cursor) : Cursor :=
  go c.rest c.stop
where
  go : List Token → Nat → Cursor
    | [], stop => ⟨[], stop⟩
    | t :: ts, stop => if t.isOneOf ws then go ts t.stop else ⟨t :: ts, stop⟩

end Cursor
end SignatureInference.Php
