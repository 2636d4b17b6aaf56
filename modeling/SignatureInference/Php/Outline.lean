import SignatureInference.Php.Grammar

/-! # The outline of a file

The namespaces, imports and class-like declarations of a file in their order. Blocks and the bodies
of namespaces are looked into, bodies of functions are not. Where a statement is not well-formed the
outline ends before it; a statement with a body counts as a whole, and a namespace without braces
reaches to the next one.
-/
namespace SignatureInference.Php

inductive Item where
  /-- The beginning of a namespace; the span is that of the whole statement. -/
  | space (span : Span)
  | imports (span : Span)
  | classLike (node : ClassNode)
  deriving DecidableEq, Repr

/-- How far a list of statements reaches. -/
inductive Extent where
  | toBrace
  | toNamespace
  deriving DecidableEq, Repr

def Extent.ended (c : Cursor) : Extent → Bool
  | toBrace => c.atSymbol "\x7d"
  | toNamespace => c.atEnd || c.atWord "namespace"

/-- Reads one statement, given how to read the statements in it. -/
def readStatement (readBody : Extent → Cursor → Option (List Item × Cursor)) (c : Cursor) :
    Option (List Item × Cursor) :=
  if c.atWord "namespace" then do
    let head := if c.skip.peek?.any (·.isName) then c.skip.skip else c.skip
    if head.atSymbol "\x7b" then
      let (items, body) ← readBody .toBrace head.skip
      let last ← body.symbol "\x7d"
      return (.space (c.spanTo last) :: items, last)
    else
      let (items, last) ← readBody .toNamespace (← head.terminator)
      return (.space (c.spanTo last) :: items, last)
  else if c.atWord "use" then do
    let last ← pass .statement c
    return ([.imports (c.spanTo last)], last)
  else if c.atSymbol "\x7b" then do
    let (items, body) ← readBody .toBrace c.skip
    return (items, ← body.symbol "\x7d")
  else do
    let declaration ← pass .attributes c
    if atClassLike declaration then
      let (node, last) ← readClass pass declaration
      return ([.classLike node], last)
    else return ([], ← pass .statement c)

def readStatements : (steps : Nat) → Extent → Cursor → Option (List Item × Cursor)
  | 0, _, _ => none
  | steps + 1, extent, c =>
    if extent.ended c then some ([], c)
    else do
      let (items, c) ← readStatement (readStatements steps) c
      let (more, c) ← readStatements steps extent c
      return (items ++ more, c)

/-- The outline of the tokens left, as far as they are well-formed. -/
def outlineFrom : (steps : Nat) → Cursor → List Item
  | 0, _ => []
  | steps + 1, c =>
    if c.atEnd then []
    else
      match readStatement (readStatements (2 * c.rest.length + 2)) c with
      | none => []
      | some (items, c) => items ++ outlineFrom steps c

def outline (source : String) : List Item :=
  let ts := tokens source
  outlineFrom ts.length ⟨ts, 0⟩

end SignatureInference.Php
