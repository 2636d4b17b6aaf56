import SignatureInference.Json.Reader
import SignatureInference.Json.Writer

/-! # Trace records

What a trace tells of a call: the entry with the arguments, and the return with the result. Records
are kept on lines of JSON. A line may have the fields of a record in any order with others between
them, or an array with the values alone in their order.
-/
namespace SignatureInference.Trace

/-- The beginning of a call. -/
structure Entry where
  /-- The number of the call. -/
  call : UInt64
  function : String
  /-- Whether the function belongs to the traced program rather than to the language. -/
  userDefined : Bool
  file : String
  /-- The arguments as printed. -/
  parameters : List String
  deriving DecidableEq, Repr

/-- The end of a call. -/
structure Return where
  /-- The number of the call. -/
  call : UInt64
  /-- The result as printed. -/
  value : String
  deriving DecidableEq, Repr

inductive Record where
  | entry (e : Entry)
  | result (r : Return)
  deriving DecidableEq, Repr

/-- The values of the named fields in the order of the names. Each of them has to occur once, and
the name of every field has to be a text. -/
def fieldValues? (names : List String) : Json → Option (List Json)
  | .array items => some items
  | .object fields =>
    if fields.any (·.1.isNone) then none
    else
      names.mapM fun name =>
        match fields.filter (·.1 == some name) with
        | [(_, value)] => some value
        | _ => none
  | _ => none

namespace Entry

def fieldNames : List String :=
  ["call_number", "function_name", "user_defined", "file_path", "parameters"]

def json (e : Entry) : Json :=
  .ofFields (fieldNames.zip
    [.ofNat e.call.toNat, .ofString e.function, .bool e.userDefined, .ofString e.file,
     .array (e.parameters.map .ofString)])

def ofJson? (j : Json) : Option Entry := do
  match ← fieldValues? fieldNames j with
  | [call, function, userDefined, file, parameters] =>
    return {
      call := ← call.uint64?
      function := ← function.text?
      userDefined := ← userDefined.bool?
      file := ← file.text?
      parameters := ← (← parameters.items?).mapM Json.text? }
  | _ => none

end Entry

namespace Return

def fieldNames : List String := ["call_number", "return_value"]

def json (r : Return) : Json :=
  .ofFields (fieldNames.zip [.ofNat r.call.toNat, .ofString r.value])

def ofJson? (j : Json) : Option Return := do
  match ← fieldValues? fieldNames j with
  | [call, value] => return ⟨← call.uint64?, ← value.text?⟩
  | _ => none

end Return

/-- A JSON value on a line of its own. -/
def lineOf (j : Json) : String := String.ofList (j.compact ++ ['\n'])

end SignatureInference.Trace
