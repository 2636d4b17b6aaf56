import SignatureInference.Edit
import SignatureInference.Instruction
import SignatureInference.Source.Span

/-! # Where a type goes

An instruction becomes one insertion: the type of a result after the parenthesis that closes the
parameters, the type of a parameter in front of its variable. What the masked source does not show
beyond doubt is refused.
-/
namespace SignatureInference

/-- Why an instruction is not carried out. -/
inductive Refusal where
  | noFile
  | severalFiles
  | noClass
  | severalClasses
  | noMethod
  | openParameters
  | resultHasType
  | noParameter
  | parameterHasType
  deriving DecidableEq, Repr

def Refusal.message : Refusal → String
  | noFile => "no file declares the class"
  | severalFiles => "class is declared in several files"
  | noClass => "class declaration not found in file"
  | severalClasses => "class declared more than once in file"
  | noMethod => "function not found in class"
  | openParameters => "unterminated parameter list"
  | resultHasType => "return type already declared"
  | noParameter => "parameter not found"
  | parameterHasType => "parameter already has a type"

namespace Placement

/-- The nesting of brackets after a character. -/
def depthAfter (depth : Int) (c : Char) : Int :=
  if c = '(' || c = '[' || c = '\x7b' then depth + 1
  else if c = ')' || c = ']' || c = '\x7d' then depth - 1
  else depth

/-- The texts of the parameters, separated by the commas that no bracket holds. The last one counts
only if all brackets are closed. -/
def parameterTexts (depth : Int) : List Char → List (List Char)
  | [] => if depth = 0 then [[]] else []
  | c :: cs =>
    if c = ',' && depth = 0 then [] :: parameterTexts depth cs
    else
      match parameterTexts (depthAfter depth c) cs with
      | [] => []
      | text :: texts => (c :: text) :: texts

/-- Words that may stand in front of a parameter of a constructor. -/
def promotionWords : List String := ["public", "protected", "private", "readonly"]

def isWordPart (c : Char) : Bool := Text.isAlphanumeric c || c == '_'

/-- What follows a word is shorter than the text that it stands in. -/
theorem length_after_word_lt {text : List Char}
    (h : promotionWords.contains
      (String.ofList (Text.lower ((Text.trimStart text).takeWhile isWordPart))) = true) :
    ((Text.trimStart text).dropWhile isWordPart).length < text.length := by
  have parts := congrArg List.length
    (List.takeWhile_append_dropWhile (p := isWordPart) (l := Text.trimStart text))
  have trimmed : (Text.trimStart text).length ≤ text.length :=
    (List.dropWhile_sublist _).length_le
  have word : (Text.trimStart text).takeWhile isWordPart ≠ [] := by
    intro empty
    rw [empty] at h
    revert h
    decide
  have := List.length_pos_iff.mpr word
  rw [List.length_append] at parts
  omega

/-- The text of a parameter from its type on, or from its variable on if it has no type. -/
def fromType? (text : List Char) : Option (List Char) :=
  let trimmed := Text.trimStart text
  if trimmed = [] then none
  else if promotionWords.contains (String.ofList (Text.lower (trimmed.takeWhile isWordPart))) then
    fromType? (trimmed.dropWhile isWordPart)
  else some trimmed
termination_by text.length
decreasing_by exact length_after_word_lt ‹_›

/-- The offset at which the type of a parameter goes, given the offset of the text with all
parameters. -/
def parameterOffset (start : Nat) (params : List Char) (index : Nat) : Except Refusal Nat :=
  let texts := parameterTexts 0 params
  match texts[index]?.bind fun text => (fromType? text).map (text, ·) with
  | none => .error .noParameter
  | some (text, rest) =>
    if Text.startsWith ['$'] rest || Text.startsWith ['&'] rest ||
      Text.startsWith "...".toList rest then
      let before := (texts.take index).flatMap (· ++ [','])
      .ok (start + Text.byteLength before + (Text.byteLength text - Text.byteLength rest))
    else .error .parameterHasType

/-- The insertion into a method whose parameters open and close at the given offsets. -/
def editBetween (masked : List Char) (paramsOpen close : Nat) (i : Instruction) :
    Except Refusal Edit :=
  match i.target with
  | .result =>
    if Text.startsWith [':'] (Text.trimStart (Text.dropBytes (close + 1) masked)) then
      .error .resultHasType
    else .ok (.insertion (close + 1) (": " ++ i.type.render))
  | .parameter index => do
    let start := paramsOpen + 1
    let params := Text.takeBytes (close - start) (Text.dropBytes start masked)
    let offset ← parameterOffset start params index
    return .insertion offset (i.type.render ++ " ")

/-- The class of an instruction among the classes of a source. Case does not count. -/
def theClass (classes : List Source.ClassSpan) (name : ClassName) :
    Except Refusal Source.ClassSpan :=
  match classes.filter fun c =>
      Text.sameIgnoringAsciiCase c.namespaceName name.namespaceName &&
        Text.sameIgnoringAsciiCase c.name name.shortName with
  | [c] => .ok c
  | [] => .error .noClass
  | _ => .error .severalClasses

def locate (source : String) (i : Instruction) : Except Source.ScanError (Except Refusal Edit) := do
  let masked := Source.mask source.toList
  match theClass (Source.classSpans masked) i.className with
  | .error r => return .error r
  | .ok c =>
    let methods ← Source.methodSpans masked c
    match methods.find? fun f => Text.sameIgnoringAsciiCase f.name i.function with
    | none => return .error .noMethod
    | some f =>
      match Source.findClosing masked f.paramsOpen with
      | none => return .error .openParameters
      | some close => return editBetween masked f.paramsOpen close i

end Placement
end SignatureInference
