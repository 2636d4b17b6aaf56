import SignatureInference.Source.Bracket
import SignatureInference.Source.Header
import SignatureInference.Source.Mask
import SignatureInference.Text.Lowercase

/-! # Spans of declarations

Where a masked source declares class-like things and functions.
-/
namespace SignatureInference.Source

/-- A class-like declaration. Its body lies inside the braces. -/
structure ClassSpan where
  namespaceName : String
  name : String
  bodyStart : Nat
  bodyStop : Nat
  deriving DecidableEq, Repr

structure FunctionSpan where
  name : String
  /-- The offset of the parenthesis that opens the parameters. -/
  paramsOpen : Nat
  deriving DecidableEq, Repr

inductive ScanError where
  /-- The parameters of a function end only after the text that is searched. -/
  | paramsBeyondEnd
  deriving DecidableEq, Repr

/-- The offset of the first character of a text that satisfies `p`, and the character. -/
def findFrom (p : Char → Bool) (pos : Nat) : List Char → Option (Nat × Char)
  | [] => none
  | c :: cs => if p c then some (pos, c) else findFrom p (pos + c.utf8Size) cs

def endsHead (c : Char) : Bool := c == '\x7b' || c == ';'

/-- The namespace in effect at an offset: that of the last namespace statement before it. -/
def namespaceAt (namespaces : List Occurrence) (offset : Nat) : String :=
  match (namespaces.takeWhile fun o => o.start < offset).getLast? with
  | some o => String.ofList o.name
  | none => ""

/-- Whether a class keyword after the given text is part of an expression. -/
def inExpression (before : List Char) : Bool :=
  let before := Text.trimEnd before
  Text.endsWith "::".toList before || Text.endsWith "->".toList before ||
    Text.endsWith "new".toList (Text.lower before)

/-- Whether a name is one of the keywords that can follow the keyword of an anonymous class. -/
def isClauseWord (name : List Char) : Bool :=
  Text.lower name == "extends".toList || Text.lower name == "implements".toList

def classSpan? (masked : List Char) (namespaces : List Occurrence) (o : Occurrence) :
    Option ClassSpan := do
  if inExpression (Text.takeBytes o.start masked) || isClauseWord o.name then none
  let (start, c) ← findFrom endsHead o.stop (Text.dropBytes o.stop masked)
  if c = ';' then none
  let stop ← findClosing masked start
  return ⟨namespaceAt namespaces o.start, String.ofList o.name, start + 1, stop⟩

def classSpans (masked : List Char) : List ClassSpan :=
  let namespaces := occurrences namespaceHeader? masked
  (occurrences classHeader? masked).filterMap (classSpan? masked namespaces)

/-- Where to go on searching after the parameters that close at `close`: after the body, or after
the semicolon of a function without one. -/
def afterFunction (masked : List Char) (stop close : Nat) : Nat :=
  match findFrom endsHead close (Text.takeBytes (stop - close) (Text.dropBytes close masked)) with
  | some (p, c) =>
    if c = ';' then p + 1
    else
      match findClosing masked p with
      | some q => q + 1
      | none => stop
  | none => stop

/-- The functions between two offsets. Those inside the body of another function are left out. Each
step moves `start` forward, so that the length of the text bounds their number. -/
def functionSpansFrom (masked : List Char) (stop : Nat) :
    (steps start : Nat) → Except ScanError (List FunctionSpan)
  | 0, _ => .ok []
  | steps + 1, start =>
    if stop ≤ start then .ok []
    else
      match firstOccurrence? functionHeader? none start
          (Text.takeBytes (stop - start) (Text.dropBytes start masked)) with
      | none => .ok []
      | some o =>
        let span : FunctionSpan := ⟨String.ofList o.name, o.stop - 1⟩
        match findClosing masked span.paramsOpen with
        | none => .ok [span]
        | some close =>
          if stop < close then .error .paramsBeyondEnd
          else do
            let spans ← functionSpansFrom masked stop steps (afterFunction masked stop close)
            return span :: spans

/-- The functions declared directly between two offsets of a masked source. -/
def functionSpans (masked : List Char) (start stop : Nat) : Except ScanError (List FunctionSpan) :=
  functionSpansFrom masked stop (stop - start) start

def methodSpans (masked : List Char) (c : ClassSpan) : Except ScanError (List FunctionSpan) :=
  functionSpans masked c.bodyStart c.bodyStop

/-- The functions declared outside all the given classes, each with its namespace. -/
def freeFunctions (masked : List Char) (classes : List ClassSpan) :
    Except ScanError (List (String × FunctionSpan)) := do
  let namespaces := occurrences namespaceHeader? masked
  let spans ← functionSpans masked 0 (Text.byteLength masked)
  let free := spans.filter fun f =>
    !classes.any fun c => c.bodyStart ≤ f.paramsOpen && f.paramsOpen < c.bodyStop
  return free.map fun f => (namespaceAt namespaces f.paramsOpen, f)

end SignatureInference.Source
