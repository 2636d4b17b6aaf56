import SignatureInference.Php.Cursor

/-! # The grammar of PHP

What a well-formed piece of code is, rule by rule. A rule passes the tokens of one construct or
fails. The rules refer to each other through a parameter, and `pass` closes the circle with a bound
on the depth of the references that no construct of the given number of tokens can reach.

Operators are read without regard to their strength, since only the extent of an expression matters.
-/
namespace SignatureInference.Php

/-- The constructs of the grammar that other constructs contain. -/
inductive Rule where
  | expression
  /-- What two operators have between them. -/
  | operand
  /-- What can follow an operand: indices, members, calls. -/
  | suffixes
  /-- Operators with their right-hand sides. -/
  | operators
  /-- The rest of the arguments of a call, with the closing parenthesis. -/
  | arguments
  /-- The rest of the items of an array, with the closing symbol. -/
  | items (closing : String)
  /-- Expressions with commas between them. -/
  | expressions
  /-- Any number of attribute groups. -/
  | attributes
  /-- The rest of an attribute group, with the closing bracket. -/
  | attributeGroup
  | type
  /-- The rest of the parameters of a function, with the closing parenthesis. -/
  | parameters
  | statement
  /-- Statements up to a closing brace. -/
  | statements
  /-- Statements up to one of the given words. -/
  | statementsUntil (words : List String)
  /-- Statements in braces. -/
  | block
  /-- The rest of the members of a class, with the closing brace. -/
  | members
  /-- The rest of the arms of a match, with the closing brace. -/
  | arms
  /-- The rest of the accessors of a property, with the closing brace. -/
  | accessors
  /-- The catch clauses and the finally clause of a try statement. -/
  | catches
  /-- The rest of an if statement after its first branch. -/
  | branches
  /-- The rest of an if statement in colon form. -/
  | colonBranches
  deriving DecidableEq, Repr

/-- How constructs are passed that a construct contains. -/
abbrev Passing := Rule → Cursor → Option Cursor

/-- Symbols between two operands. -/
def binarySymbols : List String :=
  ["=", "+=", "-=", "*=", "/=", ".=", "%=", "**=", "??=", "&=", "|=", "^=", "<<=", ">>=", "??",
   "||", "&&", "|", "^", "&", "==", "!=", "<>", "===", "!==", "<", "<=", ">", ">=", "<=>", "<<",
   ">>", "+", "-", "*", "/", "%", ".", "**", "|>"]

def binaryWords : List String := ["and", "or", "xor", "instanceof"]

/-- Symbols in front of an operand. -/
def leadingSymbols : List String := ["!", "~", "@", "-", "+", "&", "++", "--"]

def leadingWords : List String :=
  ["print", "throw", "include", "include_once", "require", "require_once"]

/-- The types that a cast in parentheses names. -/
def castWords : List String :=
  ["int", "integer", "bool", "boolean", "float", "double", "real", "string", "array",
    "object", "unset",
   "binary"]

/-- The words that neither a constant nor a function can have as its name. -/
def reservedWords : List String :=
  ["abstract", "and", "as", "break", "callable", "case", "catch", "class", "const", "continue",
   "declare", "default", "do", "echo", "else", "elseif", "enddeclare", "endfor", "endforeach",
   "endif", "endswitch", "endwhile", "extends", "final", "finally", "for", "foreach", "global",
   "goto", "if", "implements", "instanceof", "insteadof", "interface", "namespace", "or",
   "private", "protected", "public", "return", "switch", "trait", "try", "use", "var", "while",
   "xor"]

def memberWords : List String :=
  ["public", "protected", "private", "static", "final", "abstract", "readonly", "var"]

def parameterWords :
    List String := ["public", "protected", "private", "readonly", "final", "static"]

def classModifiers : List String := ["abstract", "final", "readonly"]

def classKeywords : List String := ["class", "interface", "trait"]

section

variable (pass : Passing)

def passMemberName (c : Cursor) : Option Cursor :=
  if c.atKind .word || c.atKind .variable then some c.skip
  else if c.atSymbol "\x7b" then do (← pass .expression c.skip).symbol "\x7d"
  else if c.atSymbol "$" then pass .operand c
  else none

def passSuffixes (c : Cursor) : Option Cursor :=
  if c.atSymbol "[" then do
    let c := c.skip
    if c.atSymbol "]" then pass .suffixes c.skip
    else pass .suffixes (← (← pass .expression c).symbol "]")
  else if c.atSymbol "(" then do pass .suffixes (← pass .arguments c.skip)
  else if c.atSymbol "->" || c.atSymbol "?->" || c.atSymbol "::" then do
    pass .suffixes (← passMemberName pass c.skip)
  else if c.atSymbol "++" || c.atSymbol "--" then pass .suffixes c.skip
  else some c

def passOperators (c : Cursor) : Option Cursor :=
  match c.peek? with
  | none => some c
  | some t =>
    if t.isSymbol "?" then do
      let c := c.skip
      if c.atSymbol ":" then pass .expression c.skip
      else pass .expression (← (← pass .expression c).symbol ":")
    else if (t.kind == .symbol && binarySymbols.contains t.text) || t.isOneOf binaryWords then
      pass .expression c.skip
    else some c

def passParameterList (c : Cursor) : Option Cursor := do pass .parameters (← c.symbol "(")

/-- The type of a result, if one is declared. -/
def passResultType (c : Cursor) : Option Cursor :=
  if c.atSymbol ":" then pass .type c.skip else some c

def passClosure (c : Cursor) : Option Cursor := do
  let c ← passParameterList pass (c.symbolIf "&")
  let c ← if c.atWord "use" then do pass .arguments (← c.skip.symbol "(") else some c
  pass .block (← passResultType pass c)

def passArrowFunction (c : Cursor) : Option Cursor := do
  let c ← passParameterList pass (c.symbolIf "&")
  let c ← passResultType pass c
  pass .expression (← c.symbol "=>")

def passNames : (fuel : Nat) → Cursor → Option Cursor
  | 0, _ => none
  | fuel + 1, c => do
    let c ← c.name
    if c.atSymbol "," then passNames fuel c.skip else some c

/-- The extends and implements clauses of a class, and its body. -/
def passClassTail (c : Cursor) : Option Cursor := do
  let c ← if c.atWord "extends" then passNames c.rest.length c.skip else some c
  let c ← if c.atWord "implements" then passNames c.rest.length c.skip else some c
  pass .members (← c.symbol "\x7b")

/-- What follows the keyword that makes a new object. -/
def passNew (c : Cursor) : Option Cursor := do
  let c' := (← pass .attributes c).skipWords classModifiers
  if c'.atWord "class" then
    let c := c'.skip
    let c ← if c.atSymbol "(" then pass .arguments c.skip else some c
    passClassTail pass c
  else pass .operand c

/-- Whether a cursor stands where a yielded value may be left out. -/
def endsYield (c : Cursor) : Bool :=
  c.atEnd || c.atKind .closeTag ||
    [";", ")", ",", "]", "\x7d"].any c.atSymbol

def passWordOperand (t : Token) (c : Cursor) : Option Cursor :=
  let next := c.skip
  let w := t.keyword
  if w == "new" then do pass .suffixes (← passNew pass next)
  else if w == "clone" then pass .operand next
  else if leadingWords.contains w then pass .expression next
  else if w == "yield" then do
    let next := next.skipWords ["from"]
    if endsYield next then some next
    else
      let c ← pass .expression next
      if c.atSymbol "=>" then pass .expression c.skip else some c
  else if w == "function" then do pass .suffixes (← passClosure pass next)
  else if w == "fn" then passArrowFunction pass next
  else if w == "static" && next.atOneOf ["function", "fn"] then pass .operand next
  else if w == "array" || w == "list" then do
    pass .suffixes (← pass (.items ")") (← next.symbol "("))
  else if w == "match" && next.atSymbol "(" then do
    let c ← (← pass .expression next.skip).symbol ")"
    pass .suffixes (← pass .arms (← c.symbol "\x7b"))
  else if reservedWords.contains w then none
  else pass .suffixes next

def atCast (c : Cursor) : Bool :=
  c.atSymbol "(" && c.second?.any (·.isOneOf castWords) && c.rest[2]?.any (·.isSymbol ")")

def passSymbolOperand (t : Token) (c : Cursor) : Option Cursor :=
  if leadingSymbols.contains t.text then pass .operand c.skip
  else if atCast c then pass .operand c.skip.skip.skip
  else if t.text == "(" then do pass .suffixes (← (← pass .expression c.skip).symbol ")")
  else if t.text == "[" then do pass .suffixes (← pass (.items "]") c.skip)
  else if t.text == "$" then
    let c := c.skip
    if c.atSymbol "\x7b" then do pass .suffixes (← (← pass .expression c.skip).symbol "\x7d")
    else if c.atSymbol "$" || c.atKind .variable then pass .operand c
    else none
  else if t.text == "#[" then do pass .operand (← pass .attributes c)
  else none

def passOperand (c : Cursor) : Option Cursor :=
  match c.peek? with
  | none => none
  | some t =>
    match t.kind with
    | .variable | .number | .string | .qualified => pass .suffixes c.skip
    | .word => passWordOperand pass t c
    | .symbol => passSymbolOperand pass t c
    | _ => none

def passArguments (c : Cursor) : Option Cursor :=
  if c.atSymbol ")" then some c.skip
  else do
    let named := c.atKind .word && c.second?.any (·.isSymbol ":")
    let c := if named then c.skip.skip else c
    let c ←
      if c.atSymbol "..." then
        if c.second?.any (·.isSymbol ")") then some c.skip else pass .expression c.skip
      else pass .expression c
    if c.atSymbol "," then pass .arguments c.skip else c.symbol ")"

def passItems (closing : String) (c : Cursor) : Option Cursor :=
  if c.atSymbol closing then some c.skip
  else if c.atSymbol "," then pass (.items closing) c.skip
  else do
    let c ← pass .expression (c.symbolIf "...")
    let c ← if c.atSymbol "=>" then pass .expression c.skip else some c
    if c.atSymbol "," then pass (.items closing) c.skip else c.symbol closing

def passExpressions (c : Cursor) : Option Cursor := do
  let c ← pass .expression c
  if c.atSymbol "," then pass .expressions c.skip else some c

def passAttributes (c : Cursor) : Option Cursor :=
  if c.atSymbol "#[" then do pass .attributes (← pass .attributeGroup c.skip) else some c

def passAttributeGroup (c : Cursor) : Option Cursor :=
  if c.atSymbol "]" then some c.skip
  else do
    let c ← c.name
    let c ← if c.atSymbol "(" then pass .arguments c.skip else some c
    if c.atSymbol "," then pass .attributeGroup c.skip else c.symbol "]"

/-- Whether an ampersand joins two types and does not mark a parameter as a reference. -/
def joinsTypes (c : Cursor) : Bool :=
  c.atSymbol "&" &&
    !c.second?.any fun t => t.kind == .variable || t.isSymbol "..." || t.isSymbol "&"

def passType (c : Cursor) : Option Cursor :=
  if c.atSymbol "?" then pass .type c.skip
  else do
    let c ←
      if c.atSymbol "(" then do (← pass .type c.skip).symbol ")"
      else c.name
    if c.atSymbol "|" || joinsTypes c then pass .type c.skip else some c

structure ParameterNode where
  /-- The variable with its dollar sign. -/
  name : Span
  hint : Option Span
  default : Option Span
  variadic : Bool
  deriving DecidableEq, Repr

/-- Passes the words in front of a parameter or a member, also those that limit writing. -/
def passModifiers (words : List String) : (fuel : Nat) → Cursor → Cursor
  | 0, c => c
  | fuel + 1, c =>
    if c.atOneOf words then
      let next := c.skip
      if next.atSymbol "(" && next.second?.any (·.isWord "set") &&
        next.rest[2]?.any (·.isSymbol ")") then
        passModifiers words fuel next.skip.skip.skip
      else passModifiers words fuel next
    else c

def readParameter (c : Cursor) : Option (ParameterNode × Cursor) := do
  let c ← pass .attributes c
  let c := passModifiers parameterWords c.rest.length c
  let typed := !(c.atKind .variable || c.atSymbol "&" || c.atSymbol "...")
  let afterType ← if typed then pass .type c else some c
  let hint := if typed then some (c.spanTo afterType) else none
  let c := afterType.symbolIf "&"
  let variadic := c.atSymbol "..."
  let c := c.symbolIf "..."
  let afterVariable ← c.token .variable
  let name := c.spanTo afterVariable
  let c := afterVariable
  let hasDefault := c.atSymbol "="
  let afterDefault ← if hasDefault then pass .expression c.skip else some c
  let default := if hasDefault then some (c.skip.spanTo afterDefault) else none
  let c := afterDefault
  let c ← if c.atSymbol "\x7b" then pass .accessors c.skip else some c
  return (⟨name, hint, default, variadic⟩, c)

def passParameters (c : Cursor) : Option Cursor :=
  if c.atSymbol ")" then some c.skip
  else do
    let (_, c) ← readParameter pass c
    if c.atSymbol "," then pass .parameters c.skip else c.symbol ")"

def readParameters : (fuel : Nat) → Cursor → Option (List ParameterNode × Cursor)
  | 0, _ => none
  | fuel + 1, c =>
    if c.atSymbol ")" then some ([], c.skip)
    else do
      let (p, c) ← readParameter pass c
      if c.atSymbol "," then
        let (ps, c) ← readParameters fuel c.skip
        return (p :: ps, c)
      else
        let c ← c.symbol ")"
        return ([p], c)

structure MethodNode where
  /-- Where the declaration begins, attributes and modifiers included. -/
  start : Nat
  name : Span
  parameters : List ParameterNode
  hasReturnType : Bool
  deriving DecidableEq, Repr

def passConstants : (fuel : Nat) → Cursor → Option Cursor
  | 0, _ => none
  | fuel + 1, c => do
    let typed := !c.second?.any (·.isSymbol "=")
    let c ← if typed then pass .type c else some c
    let c ← c.token .word
    let c ← pass .expression (← c.symbol "=")
    if c.atSymbol "," then passConstants fuel c.skip else c.terminator

def passProperties : (fuel : Nat) → Cursor → Option Cursor
  | 0, _ => none
  | fuel + 1, c => do
    let c ← c.token .variable
    let c ← if c.atSymbol "=" then pass .expression c.skip else some c
    if c.atSymbol "\x7b" then pass .accessors c.skip
    else if c.atSymbol "," then passProperties fuel c.skip
    else c.terminator

def passToBrace : (fuel : Nat) → Cursor → Option Cursor
  | 0, _ => none
  | fuel + 1, c =>
    if c.atSymbol "\x7d" then some c.skip
    else if c.atEnd || c.atKind .broken then none
    else passToBrace fuel c.skip

def passTraitUse (c : Cursor) : Option Cursor := do
  let c ← passNames c.rest.length c
  if c.atSymbol "\x7b" then passToBrace c.rest.length c.skip else c.terminator

def passCase (c : Cursor) : Option Cursor := do
  let c ← c.token .word
  let c ← if c.atSymbol "=" then pass .expression c.skip else some c
  c.terminator

/-- Reads a function declaration with a name, after its keyword. -/
def readFunction (start : Nat) (c : Cursor) : Option (MethodNode × Cursor) := do
  let c := c.symbolIf "&"
  let afterName ← c.token .word
  let name := c.spanTo afterName
  let c ← afterName.symbol "("
  let (parameters, c) ← readParameters pass (c.rest.length + 1) c
  let hasReturnType := c.atSymbol ":"
  let c ← passResultType pass c
  return (⟨start, name, parameters, hasReturnType⟩, c)

/-- Reads a member of a class: the method if it is one. -/
def readMember (c : Cursor) : Option (Option MethodNode × Cursor) := do
  let start := c.start
  let c ← pass .attributes c
  if c.atWord "use" then return (none, ← passTraitUse c.skip)
  else if c.atWord "case" then return (none, ← passCase pass c.skip)
  else
    let c := passModifiers memberWords c.rest.length c
    if c.atWord "function" then
      let (method, c) ← readFunction pass start c.skip
      let c ← if c.atSymbol "\x7b" then pass .block c else c.terminator
      return (some method, c)
    else if c.atWord "const" then return (none, ← passConstants pass c.rest.length c.skip)
    else
      let c ← if c.atKind .variable then some c else pass .type c
      return (none, ← passProperties pass c.rest.length c)

def passMembers (c : Cursor) : Option Cursor :=
  if c.atSymbol "\x7d" then some c.skip
  else do
    let (_, c) ← readMember pass c
    pass .members c

def readMembers : (fuel : Nat) → Cursor → Option (List MethodNode × Cursor)
  | 0, _ => none
  | fuel + 1, c =>
    if c.atSymbol "\x7d" then some ([], c.skip)
    else do
      let (method, c) ← readMember pass c
      let (methods, c) ← readMembers fuel c
      return (method.toList ++ methods, c)

def passArms (c : Cursor) : Option Cursor :=
  if c.atSymbol "\x7d" then some c.skip
  else if c.atSymbol "," then pass .arms c.skip
  else do
    let c ← if c.atWord "default" then some (c.skip.symbolIf ",") else pass .expression c
    if c.atSymbol "," then pass .arms c.skip
    else if c.atSymbol "=>" then do
      let c ← pass .expression c.skip
      if c.atSymbol "," then pass .arms c.skip else c.symbol "\x7d"
    else none

def passAccessors (c : Cursor) : Option Cursor :=
  if c.atSymbol "\x7d" then some c.skip
  else do
    let c ← pass .attributes c
    let c := passModifiers memberWords c.rest.length c
    let c ← (c.symbolIf "&").token .word
    let c ← if c.atSymbol "(" then pass .parameters c.skip else some c
    let c ←
      if c.atSymbol "=>" then do (← pass .expression c.skip).terminator
      else if c.atSymbol "\x7b" then pass .block c
      else c.terminator
    pass .accessors c

/-! ### Statements -/

/-- An expression in parentheses. -/
def passCondition (c : Cursor) : Option Cursor := do
  (← pass .expression (← c.symbol "(")).symbol ")"

/-- The body of a loop: a statement, or statements after a colon up to the closing word. -/
def passBody (closing : String) (c : Cursor) : Option Cursor :=
  if c.atSymbol ":" then do
    (← (← pass (.statementsUntil [closing]) c.skip).word closing).terminator
  else pass .statement c

def passBranches (c : Cursor) : Option Cursor :=
  if c.atWord "elseif" then do
    pass .branches (← pass .statement (← passCondition pass c.skip))
  else if c.atWord "else" then pass .statement c.skip
  else some c

def passColonBranches (c : Cursor) : Option Cursor := do
  let c ← pass (.statementsUntil ["elseif", "else", "endif"]) c
  if c.atWord "elseif" then do
    pass .colonBranches (← (← passCondition pass c.skip).symbol ":")
  else if c.atWord "else" then
    if c.second?.any (·.isWord "if") then do
      pass .colonBranches (← (← passCondition pass c.skip.skip).symbol ":")
    else do
      let c ← pass (.statementsUntil ["endif"]) (← c.skip.symbol ":")
      (← c.word "endif").terminator
  else do (← c.word "endif").terminator

def passIf (c : Cursor) : Option Cursor := do
  let c ← passCondition pass c
  if c.atSymbol ":" then pass .colonBranches c.skip
  else pass .branches (← pass .statement c)

def passCatches (c : Cursor) : Option Cursor :=
  if c.atWord "catch" then do
    let c ← pass .type (← c.skip.symbol "(")
    let c := if c.atKind .variable then c.skip else c
    pass .catches (← pass .block (← c.symbol ")"))
  else if c.atWord "finally" then pass .block c.skip
  else some c

/-- The expressions of one part of the head of a for loop. -/
def passForPart (closing : String) (c : Cursor) : Option Cursor :=
  if c.atSymbol closing then some c.skip
  else do (← pass .expressions c).symbol closing

def passForeach (c : Cursor) : Option Cursor := do
  let c ← (← pass .expression (← c.symbol "(")).word "as"
  let c ← pass .expression c
  let c ← if c.atSymbol "=>" then pass .expression c.skip else some c
  passBody pass "endforeach" (← c.symbol ")")

def passCases (isEnd : Cursor → Bool) : (fuel : Nat) → Cursor → Option Cursor
  | 0, _ => none
  | fuel + 1, c =>
    if isEnd c then some c
    else do
      let c ←
        if c.atWord "case" then pass .expression c.skip
        else if c.atWord "default" then some c.skip
        else none
      let c ← if c.atSymbol ":" || c.atSymbol ";" || c.atKind .closeTag then some c.skip else none
      let c ← pass (.statementsUntil ["case", "default", "endswitch"]) c
      passCases isEnd fuel c

def passSwitch (c : Cursor) : Option Cursor := do
  let c ← passCondition pass c
  if c.atSymbol ":" then
    let c ← passCases pass (·.atWord "endswitch") (c.rest.length + 1) c.skip
    (← c.word "endswitch").terminator
  else
    let c ← c.symbol "\x7b"
    let c := c.symbolIf ";"
    (← passCases pass (·.atSymbol "\x7d") (c.rest.length + 1) c).symbol "\x7d"

/-- Variables that keep their values between calls, after the keyword. -/
def passStaticVariables : (fuel : Nat) → Cursor → Option Cursor
  | 0, _ => none
  | fuel + 1, c => do
    let c ← c.token .variable
    let c ← if c.atSymbol "=" then pass .expression c.skip else some c
    if c.atSymbol "," then passStaticVariables fuel c.skip else c.terminator

/-- An import, after its keyword: names with commas, groups and aliases. -/
def passImport : (fuel : Nat) → Cursor → Option Cursor
  | 0, _ => none
  | fuel + 1, c =>
    if c.peek?.any fun t =>
        t.isName || t.isSymbol "," || t.isSymbol "\\" || t.isSymbol "\x7b" || t.isSymbol "\x7d" then
      passImport fuel c.skip
    else c.terminator

/-- An optional expression and the end of the statement. -/
def passOptional (c : Cursor) : Option Cursor :=
  match c.terminator with
  | some c => some c
  | none => do (← pass .expression c).terminator

/-- Whether a declaration of something like a class begins, modifiers apart. -/
def atClassLike (c : Cursor) : Bool :=
  let c := c.skipWords classModifiers
  c.atOneOf classKeywords ||
    (c.atWord "enum" && c.second?.any fun t =>
      t.kind == .word && !t.isOneOf ["extends", "implements"])

/-- A class-like declaration: its keyword, its name, what it extends and implements, its methods. -/
structure ClassNode where
  keyword : String
  name : Span
  extending : List Span
  implementing : List Span
  methods : List MethodNode
  deriving DecidableEq, Repr

def readNames : (fuel : Nat) → Cursor → Option (List Span × Cursor)
  | 0, _ => none
  | fuel + 1, c => do
    let next ← c.name
    let span := c.spanTo next
    if next.atSymbol "," then
      let (spans, c) ← readNames fuel next.skip
      return (span :: spans, c)
    else return ([span], next)

/-- Reads names after a keyword, if the keyword comes next. -/
def readClause (keyword : String) (c : Cursor) : Option (List Span × Cursor) :=
  if c.atWord keyword then readNames c.rest.length c.skip else some ([], c)

def readClass (c : Cursor) : Option (ClassNode × Cursor) := do
  let c := c.skipWords classModifiers
  let t ← c.peek?
  let c := c.skip
  let afterName ← c.token .word
  let nameToken ← c.peek?
  if reservedWords.contains nameToken.keyword then none
  let name := c.spanTo afterName
  let c := afterName
  let c ← if t.isWord "enum" && c.atSymbol ":" then pass .type c.skip else some c
  let (extending, c) ← readClause "extends" c
  let (implementing, c) ← readClause "implements" c
  let (methods, c) ← readMembers pass (c.rest.length + 1) (← c.symbol "\x7b")
  return (⟨t.keyword, name, extending, implementing, methods⟩, c)

/-- A statement that begins with a word; `next` is the cursor after it. -/
def passWordStatement (t : Token) (c : Cursor) : Option Cursor :=
  let next := c.skip
  let w := t.keyword
  let asExpression : Unit → Option Cursor := fun _ => do (← pass .expression c).terminator
  if atClassLike c then (readClass pass c).map (·.2)
  else if w == "function" && next.peek?.any (fun t => t.kind == .word || t.isSymbol "&") &&
      ((next.symbolIf "&").atKind .word) then do
    let (_, c) ← readFunction pass c.start next
    pass .block c
  else if w == "if" then passIf pass next
  else if w == "while" then do passBody pass "endwhile" (← passCondition pass next)
  else if w == "do" then do
    (← passCondition pass (← (← pass .statement next).word "while")).terminator
  else if w == "for" then do
    let c ← passForPart pass ";" (← next.symbol "(")
    let c ← passForPart pass ";" c
    passBody pass "endfor" (← passForPart pass ")" c)
  else if w == "foreach" then passForeach pass next
  else if w == "switch" then passSwitch pass next
  else if w == "try" then do pass .catches (← pass .block next)
  else if w == "return" || w == "break" || w == "continue" then passOptional pass next
  else if w == "echo" || w == "global" then do (← pass .expressions next).terminator
  else if w == "static" && next.atKind .variable then
    passStaticVariables pass next.rest.length next
  else if w == "const" then passConstants pass next.rest.length next
  else if w == "use" then if next.peek?.any (fun t => t.isName)
    then passImport next.rest.length next else none
  else if w == "goto" then do (← next.token .word).terminator
  else if w == "declare" then do
    let c ← pass .arguments (← next.symbol "(")
    match c.terminator with
    | some c => some c
    | none => passBody pass "enddeclare" c
  else if w == "namespace" then
    if next.atSymbol "\x7b" then pass .block next
    else do
      let c ← next.name
      if c.atSymbol "\x7b" then pass .block c else c.terminator
  else if next.atSymbol ":" && !reservedWords.contains w then some next.skip
  else asExpression ()

def passStatement (c : Cursor) : Option Cursor :=
  match c.peek? with
  | none => none
  | some t =>
    match t.kind with
    | .output | .openTag | .closeTag => some c.skip
    | .openEchoTag => do (← pass .expressions c.skip).terminator
    | .broken => none
    | .word => passWordStatement pass t c
    | _ =>
      if t.isSymbol "\x7b" then pass .block c
      else if t.isSymbol ";" then some c.skip
      else if t.isSymbol "#[" then do
        let afterAttributes ← pass .attributes c
        if afterAttributes.atKind .word then pass .statement afterAttributes
        else (← pass .expression c).terminator
      else do (← pass .expression c).terminator

def passStatements (c : Cursor) : Option Cursor :=
  if c.atSymbol "\x7d" then some c else do pass .statements (← pass .statement c)

def passStatementsUntil (words : List String) (c : Cursor) : Option Cursor :=
  if c.atOneOf words || c.atSymbol "\x7d" then some c
  else do pass (.statementsUntil words) (← pass .statement c)

def passBlock (c : Cursor) : Option Cursor := do
  (← pass .statements (← c.symbol "\x7b")).symbol "\x7d"

end

/-- Passes one construct, given how to pass the constructs in it. -/
def step (pass : Passing) : Passing
  | .expression, c => do pass .operators (← pass .operand c)
  | .operand, c => passOperand pass c
  | .suffixes, c => passSuffixes pass c
  | .operators, c => passOperators pass c
  | .arguments, c => passArguments pass c
  | .items closing, c => passItems pass closing c
  | .expressions, c => passExpressions pass c
  | .attributes, c => passAttributes pass c
  | .attributeGroup, c => passAttributeGroup pass c
  | .type, c => passType pass c
  | .parameters, c => passParameters pass c
  | .statement, c => passStatement pass c
  | .statements, c => passStatements pass c
  | .statementsUntil words, c => passStatementsUntil pass words c
  | .block, c => passBlock pass c
  | .members, c => passMembers pass c
  | .arms, c => passArms pass c
  | .accessors, c => passAccessors pass c
  | .catches, c => passCatches pass c
  | .branches, c => passBranches pass c
  | .colonBranches, c => passColonBranches pass c

/-- Passes a construct whose parts lie at most `depth` references deep. -/
def passWithin : (depth : Nat) → Passing
  | 0 => fun _ _ => none
  | depth + 1 => step (passWithin depth)

/-- Passes a construct. Every reference passes a token or one of a few fixed layers of the grammar,
so that a multiple of the number of tokens bounds their depth. -/
def pass (rule : Rule) (c : Cursor) : Option Cursor := passWithin (16 * c.rest.length + 64) rule c

end SignatureInference.Php
