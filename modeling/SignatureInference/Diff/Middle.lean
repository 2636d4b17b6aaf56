import SignatureInference.Diff.Block

/-! # The middle of a shortest edit

A shortest way from one list to another runs through a grid: a step to the right deletes an element,
a step down inserts one, and a step along a diagonal keeps one and costs nothing. Two searches from
the opposite corners look how far they come on each diagonal with a given number of edits. Where
they meet is the middle of a shortest way.
-/
namespace SignatureInference.Diff

/-- How far a search comes with `edits` edits: its columns on the diagonals `edits`, `edits - 2`, …,
`-edits`. -/
structure Frontier where
  edits : Nat
  columns : List Nat
  deriving DecidableEq, Repr

namespace Frontier

/-- The column on a diagonal, if the search comes to it with exactly so many edits. -/
def column? (f : Frontier) (diagonal : Int) : Option Nat :=
  let distance := f.edits - diagonal
  if distance < 0 || distance % 2 != 0 then none else f.columns[(distance / 2).toNat]?

end Frontier

/-- The columns after one more edit on the diagonals below one where the search is in column
`above`. -/
def stepsBelow (above : Nat) : List Nat → List Nat
  | [] => [above]
  | x :: xs => (if x < above then above else x + 1) :: stepsBelow x xs

/-- The columns after one more edit. A step down keeps the column, a step to the right leads to the
next one, and the farther of the two counts. -/
def steps : List Nat → List Nat
  | [] => [0]
  | x :: xs => (x + 1) :: stepsBelow x xs

/-- A point of a search: its diagonal, and its column before and after the diagonal steps. -/
structure Reach where
  diagonal : Int
  start : Nat
  stop : Nat
  deriving DecidableEq, Repr

variable {α : Type} [DecidableEq α]

/-- The points that a search comes to with `edits` edits, from its columns with one edit less. -/
def reaches (old new : List α) (edits : Nat) (columns : List Nat) : List Reach :=
  (steps columns).zipIdx.map fun (x, i) =>
    let diagonal : Int := edits - 2 * i
    let y := x - diagonal
    let run := if y < 0 then 0 else commonHead (old.drop x) (new.drop y.toNat)
    ⟨diagonal, x, x + run⟩

/-- The first point where a search meets the other one. -/
def meeting? (old new : List α) (other : Frontier) (points : List Reach) : Option Reach :=
  points.find? fun p =>
    match other.column? ((old.length : Int) - new.length - p.diagonal) with
    | some x => old.length ≤ p.stop + x
    | none => false

/-- Searches from both corners with more and more edits, `rounds` times at most. -/
def meet? (old new : List α) :
    (rounds edits : Nat) → (forward backward : List Nat) → Option (Nat × Nat)
  | 0, _, _, _ => none
  | rounds + 1, edits, forward, backward =>
    let ahead := reaches old new edits forward
    match meeting? old new ⟨edits - 1, backward⟩ ahead with
    | some p => some (p.start, (p.start - p.diagonal).toNat)
    | none =>
      let back := reaches old.reverse new.reverse edits backward
      let forward := ahead.map (·.stop)
      match meeting? old new ⟨edits, forward⟩ back with
      | some p => some (old.length - p.stop, new.length - (p.stop - p.diagonal).toNat)
      | none => meet? old new rounds (edits + 1) forward (back.map (·.stop))

/-- Where a shortest way from `old` to `new` is cut in two. -/
def middle? (old new : List α) : Option (Nat × Nat) :=
  meet? old new ((old.length + new.length + 1) / 2 + 1) 0 [] []

end SignatureInference.Diff
