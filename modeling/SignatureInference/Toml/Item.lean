/-! # TOML items

The values and tables of a TOML document. A table remembers how it came about, since that decides
who may add to it: a table with a header of its own is not extended by dotted keys, and a table that
dotted keys made gets no header.
-/
namespace SignatureInference.Toml

/-- How a table came about. -/
inductive Origin where
  /-- By a header of its own. -/
  | header
  /-- By the header of a table inside it. -/
  | implied
  /-- By dotted keys. -/
  | dotted
  deriving DecidableEq, Repr

/-- What a key stands for. -/
inductive Item where
  | string (text : String)
  | boolean (value : Bool)
  | integer (value : Int)
  | float (literal : String)
  /-- A date, a time, or both. -/
  | moment (literal : String)
  | array (items : List Item)
  /-- A table in braces, which nothing adds to. -/
  | inline (fields : List (String × Item))
  | table (origin : Origin) (fields : List (String × Item))
  /-- Tables with headers in double brackets. -/
  | tables (elements : List (List (String × Item)))
  deriving Repr

/-- The keys of a table with their items, in the order of the document. -/
abbrev Fields := List (String × Item)

namespace Fields

def replace (fields : Fields) (key : String) (item : Item) : Fields :=
  fields.map fun f => if f.1 == key then (key, item) else f

/-- Changes the table that a path leads to, making the tables on the way that are missing. In an
array of tables the way leads through the last one. The change is told whether dotted keys made the
table. -/
def change (byDots : Bool) (f : Bool → Fields → Option Fields) :
    (path : List String) → (isDotted : Bool) → Fields → Option Fields
  | [], isDotted, fields => f isDotted fields
  | key :: path, _, fields =>
    match fields.lookup key with
    | none => do
      let child ← change byDots f path byDots []
      return fields ++ [(key, .table (if byDots then .dotted else .implied) child)]
    | some (.table origin child) => do
      if byDots && origin == .header then none
      let child ← change byDots f path (origin == .dotted) child
      return fields.replace key (.table origin child)
    | some (.tables elements) => do
      let child ← change byDots f path false (elements.getLast?.getD [])
      return fields.replace key (.tables (elements.dropLast ++ [child]))
    | some _ => none

def addPair (fields : Fields) (path : List String) (key : String) (item : Item) : Option Fields :=
  change true (fun isDotted fields =>
    if isDotted == path.isEmpty || (fields.lookup key).isSome then none
    else some (fields ++ [(key, item)])) path false fields

def addTable (fields : Fields) (path : List String) (key : String) : Option Fields :=
  change false (fun _ fields =>
    match fields.lookup key with
    | none => some (fields ++ [(key, .table .header [])])
    | some (.table .implied child) => some (fields.replace key (.table .header child))
    | some _ => none) path false fields

/-- Adds a table to the array of tables of a header. -/
def addElement (fields : Fields) (path : List String) (key : String) : Option Fields :=
  change false (fun _ fields =>
    match fields.lookup key with
    | none => some (fields ++ [(key, .tables [[]])])
    | some (.tables elements) => some (fields.replace key (.tables (elements ++ [[]])))
    | some _ => none) path false fields

def addPairAt (fields : Fields) (place path : List String) (key : String) (item : Item) :
    Option Fields :=
  change false (fun _ fields => fields.addPair path key item) place false fields

end Fields
end SignatureInference.Toml
