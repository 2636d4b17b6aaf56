import SignatureInference.Method
import SignatureInference.Php.Outline
import SignatureInference.Registry

/-! # The declarations of a file

The classes of a file with the classes they name, resolved by the namespace and the imports in
effect, and their methods with parameters and doc comments.
-/
namespace SignatureInference.Php

def Span.text (source : List Char) (span : Span) : List Char :=
  Text.takeBytes (span.stop - span.start) (Text.dropBytes span.start source)

/-- The name in the text of a namespace statement; none if it has no name. -/
def namespaceName? (statement : String) : Option String := do
  let (_, rest) ← Text.breakOn? "namespace".toList statement.toList
  let name := Text.trim (rest.takeWhile fun c => c != '\x7b' && c != ';')
  if name = [] then none else some (String.ofList name)

inductive ImportError where
  /-- The place of the word between name and alias, counted in the lower-case form of a clause, is
  no place of the clause itself, or the closing brace of a group comes first. -/
  | misplacedCut
  deriving DecidableEq, Repr

/-- Aliases and the qualified names they stand for. -/
abbrev Imports := SortedMap String String

namespace Imports

/-- Splits a clause at the word between name and alias. -/
def splitAlias (clause : List Char) : Except ImportError (List Char × Option (List Char)) :=
  match Text.breakOn? " as ".toList (Text.lower clause) with
  | none => .ok (clause, none)
  | some (before, _) =>
    match Text.splitAt? (Text.byteLength before) clause with
    | none => .error .misplacedCut
    | some (name, rest) =>
      match Text.splitAt? 4 rest with
      | none => .error .misplacedCut
      | some (_, other) => .ok (Text.trim name, some (Text.trim other))

def lastSegment (name : List Char) : List Char :=
  match Text.breakOnLast? ['\\'] name with
  | some (_, last) => last
  | none => name

/-- Adds the import of one clause of a statement whose names all begin with `group`. -/
def addClause (group : List Char) (imports : Imports) (clause : List Char) :
    Except ImportError Imports := do
  let (name, other) ← splitAlias clause
  let name := ClassName.dropLeadingBackslashes name
  let fullName :=
    if group = [] then name else ClassName.dropLeadingBackslashes group ++ '\\' :: name
  return imports.insert (String.ofList (other.getD (lastSegment name))) (String.ofList fullName)

def clauses (text : List Char) : List (List Char) :=
  ((Text.splitWhere (· == ',') text).map Text.trim).filter (!·.isEmpty)

/-- Drops a keyword from the front as often as it stands there. -/
def dropUses : List Char → List Char
  | 'u' :: 's' :: 'e' :: cs => dropUses cs
  | cs => cs

/-- Adds the class imports of a statement. Functions and constants are no classes. -/
def addStatement (imports : Imports) (statement : List Char) : Except ImportError Imports :=
  let text := Text.trimStart (dropUses (Text.trim statement))
  if Text.startsWith "function ".toList text || Text.startsWith "const ".toList text
    then .ok imports
  else
    let text := Text.trim (Text.dropEndWhile (· == ';') (Text.trim text))
    match Text.breakOn? ['\x7b'] text, Text.breakOn? ['\x7d'] text with
    | some (group, afterOpening), some (beforeClosing, _) =>
      if beforeClosing.length ≤ group.length then .error .misplacedCut
      else
        let group := Text.dropEndWhile (· == '\\') (Text.trim group)
        let inner := afterOpening.takeWhile (· != '\x7d')
        (clauses inner).foldlM (addClause group) imports
    | _, _ => (clauses text).foldlM (addClause []) imports

/-- What a name whose first segment is an alias stands for. Case does not count, and the first alias
in order wins. -/
def expand? (imports : Imports) (name : List Char) : Option String := do
  let first := name.takeWhile (· != '\\')
  let (_, target) ← imports.entries.find? fun e => Text.lower e.1.toList == Text.lower first
  return target ++ String.ofList (name.drop first.length)

end Imports

/-- What names mean at a place of a file. -/
structure Scope where
  namespaceName : String := ""
  imports : Imports := ∅
  deriving DecidableEq, Repr

def Scope.resolve (scope : Scope) (name : List Char) : ClassName :=
  match Text.dropHead? ['\\'] name with
  | some rest => .ofText (String.ofList rest)
  | none =>
    match scope.imports.expand? name with
    | some target => .ofText target
    | none => .ofParts scope.namespaceName (String.ofList name)

/-- Words that may stand between a doc comment and what it belongs to. -/
def modifierWords : List String :=
  ["public", "private", "protected", "static", "final", "abstract", "readonly"]

/-- The text of the doc comment that belongs to what begins after the given text. -/
def docCommentText? (before : List Char) : Option String := do
  let (upTo, after) ← Text.breakOnLast? "*/".toList before
  let (_, comment) ← Text.breakOnLast? "/**".toList upTo
  let adjacent := (Text.words after).all fun word =>
    modifierWords.contains (String.ofList word) || Text.startsWith "#[".toList word
  if adjacent then some (String.ofList ("/**".toList ++ comment ++ "*/".toList)) else none

def ParameterNode.parameter (source : List Char) (p : ParameterNode) : Parameter :=
  { Parameter.named (String.ofList (p.name.text source)) with
    typeHint := p.hint.map fun span => String.ofList (span.text source)
    default := p.default.map fun span => String.ofList (span.text source)
    variadic := p.variadic }

def MethodNode.method (source : List Char) (owner : ClassName) (m : MethodNode) : Method where
  className := owner
  name := String.ofList (m.name.text source)
  parameters := m.parameters.map (·.parameter source)
  hasReturnType := m.hasReturnType
  doc := (docCommentText? (Text.takeBytes m.start source)).map DocComment.ofText

def ClassNode.kind (node : ClassNode) : ClassKind :=
  if node.keyword == "interface" then .interface
  else if node.keyword == "trait" then .trait
  else if node.keyword == "enum" then .enum
  else .ordinary

structure FileDeclarations where
  classes : List ClassInfo := []
  methods : List Method := []
  deriving DecidableEq, Repr

/-- Adds a class-like declaration. Traits and enumerations are taken to have no classes above. -/
def FileDeclarations.addClass (source : List Char) (path : Path) (scope : Scope)
    (d : FileDeclarations) (node : ClassNode) : FileDeclarations :=
  let name := ClassName.ofParts scope.namespaceName (String.ofList (node.name.text source))
  let methods := node.methods.map (·.method source name)
  let resolve := fun span : Span => scope.resolve (span.text source)
  let info : ClassInfo := methods.foldl (fun c m => c.addMethod m.name)
    { ClassInfo.declaredAs name node.kind with path := some path, imports := scope.imports }
  let info :=
    match node.kind with
    | .ordinary =>
      { info with
        parent := node.extending.head?.map resolve
        interfaces := node.implementing.map resolve }
    | .interface => { info with interfaces := node.extending.map resolve }
    | _ => info
  { classes := d.classes ++ [info], methods := d.methods ++ methods }

def visit (source : List Char) (path : Path) (state : Scope × FileDeclarations) (item : Item) :
    Except ImportError (Scope × FileDeclarations) :=
  let (scope, d) := state
  match item with
  | .space span =>
    .ok ({ namespaceName := (namespaceName? (String.ofList (span.text source))).getD "" }, d)
  | .imports span => do
    let imports ← scope.imports.addStatement (span.text source)
    return ({ scope with imports }, d)
  | .classLike node => .ok (scope, d.addClass source path scope node)

def declarations (path : Path) (source : String) : Except ImportError FileDeclarations := do
  let (_, d) ← (outline source).foldlM (visit source.toList path) ({}, {})
  return d

/-- Adds the declarations of a file to a registry: first the classes, then the methods. -/
def FileDeclarations.addTo (d : FileDeclarations) (r : Registry) : Registry :=
  let r := d.classes.foldl Registry.addClass r
  d.methods.foldl (fun r m => r.add { name := m.className } m) r

end SignatureInference.Php
