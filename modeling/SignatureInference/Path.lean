import SignatureInference.Text.Basic

/-! # Paths

A path is kept as it was written. Two paths name the same place when their components agree:
repeated slashes and inner dots say nothing, a leading dot and two dots do.
-/
namespace SignatureInference

/-- One step of a path. -/
inductive Component where
  /-- The slash that an absolute path begins with. -/
  | root
  /-- A leading dot. -/
  | here
  /-- Two dots. -/
  | up
  | name (text : String)
  deriving DecidableEq, Repr

namespace Component

/-- Components sort by kind first: root, here, up, names. -/
def rank : Component → Nat
  | root => 0
  | here => 1
  | up => 2
  | name _ => 3

/-- The text of a name, empty for the other components. -/
def label : Component → String
  | name text => text
  | _ => ""

instance : Ord Component := ⟨compareLex (compareOn rank) (compareOn label)⟩

instance : Std.TransOrd Component :=
  inferInstanceAs (Std.TransCmp (compareLex (compareOn rank) (compareOn label)))

instance : Std.LawfulEqOrd Component where
  eq_of_compare {a b} h := by
    have h : (compare a.rank b.rank).then (compare a.label b.label) = .eq := h
    rw [Ordering.then_eq_eq] at h
    have hr : a.rank = b.rank := Std.LawfulEqCmp.eq_of_compare h.1
    have hl : a.label = b.label := Std.LawfulEqCmp.eq_of_compare h.2
    cases a <;> cases b <;> simp_all [rank, label]

end Component

/-- A file path as it was written. -/
structure Path where
  text : String
  deriving DecidableEq, Repr, Inhabited

namespace Path

def components (p : Path) : List Component :=
  let pieces := (Text.splitWhere (· == '/') p.text.toList).map String.ofList
  let steps := (pieces.filter fun s => s != "" && s != ".").map fun s =>
    if s == ".." then Component.up else .name s
  if Text.startsWith ['/'] p.text.toList then .root :: steps
  else if pieces.head? == some "." then .here :: steps
  else steps

def same (p q : Path) : Bool := p.components == q.components

theorem same_iff {p q : Path} : p.same q = true ↔ p.components = q.components := by
  rw [same, beq_iff_eq]

theorem same_comm (p q : Path) : p.same q = q.same p := by
  rw [Bool.eq_iff_iff, same_iff, same_iff, eq_comm]

/-- The order of paths, component by component. -/
def le (p q : Path) : Bool := (compare p.components q.components).isLE

def join (p : Path) (name : String) : Path :=
  if Text.startsWith ['/'] name.toList then ⟨name⟩
  else if p.text == "" then ⟨name⟩
  else if Text.endsWith ['/'] p.text.toList then ⟨p.text ++ name⟩
  else ⟨p.text ++ "/" ++ name⟩

/-- The last component, if it is a name. -/
def fileName? (p : Path) : Option String :=
  match p.components.getLast? with
  | some (.name text) => some text
  | _ => none

/-- What follows the last dot of the file name; a dot at its beginning does not count. -/
def extension? (p : Path) : Option String := do
  let name ← p.fileName?
  let (stem, ext) ← Text.breakOnLast? ['.'] name.toList
  if stem = [] then none else some (String.ofList ext)

/-- The path without its last component; none for the root and for the empty path. -/
def parent? (p : Path) : Option Path :=
  let isEmptyStep := fun s : String => s == "" || s == "."
  let dropEmpty := fun steps : List String => (steps.reverse.dropWhile isEmptyStep).reverse
  match (Text.splitWhere (· == '/') p.text.toList).map String.ofList with
  | [] => none
  | first :: rest =>
    match dropEmpty rest with
    | [] => if first == "" then none else some ⟨""⟩
    | steps =>
      let above := first :: dropEmpty steps.dropLast
      some ⟨if above == [""] then "/" else "/".intercalate above⟩

/-- The first of a path and its parents, each above the one before it, at most `steps` of them. -/
def upward : (steps : Nat) → Path → List Path
  | 0, _ => []
  | steps + 1, p =>
    match p.parent? with
    | none => [p]
    | some q => p :: upward steps q

/-- A path and all its parents. Each step up makes the text shorter. -/
def selfAndParents (p : Path) : List Path := upward (p.text.length + 1) p

/-- Sorts paths and keeps the first of those that name the same place. -/
def sortDistinct (paths : List Path) : List Path :=
  (paths.mergeSort le).eraseRepsBy same

end Path
end SignatureInference
