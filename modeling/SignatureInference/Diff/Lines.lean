import SignatureInference.Diff.Block
import SignatureInference.Text.Lines

/-! # Changed lines

The lines that were removed from a text and added to it, by a longest common subsequence of the
lines. Where there is a choice, removed lines come before added ones.
-/
namespace SignatureInference.Diff

/-- A line that only one of two texts has. -/
inductive LineChange where
  | removed (line : String)
  | added (line : String)
  deriving DecidableEq, Repr

/-- The lengths of the longest common subsequences of `a :: as` and each end of `bs`, longest end
first, from those of `as`. -/
def commonRow (a : String) : List String → List Nat → List Nat
  | b :: bs, n :: ns =>
    let row := commonRow a bs ns
    (if a = b then ns.headD 0 + 1 else max n (row.headD 0)) :: row
  | _, _ => [0]

/-- The lengths for each end of `as`, longest end first. -/
def commonRows (bs : List String) : List String → List (List Nat)
  | [] => [List.replicate (bs.length + 1) 0]
  | a :: as =>
    let rows := commonRows bs as
    commonRow a bs (rows.headD []) :: rows

/-- The length for two whole lists in a table of their ends. -/
def corner (rows : List (List Nat)) : Nat := (rows.headD []).headD 0

/-- The changes from `as` to `bs`, with the table of lengths at hand. -/
def changesBy : (rows : List (List Nat)) → (as bs : List String) → List LineChange
  | _, [], [] => []
  | rows, [], b :: bs => .added b :: changesBy rows [] bs
  | rows, a :: as, [] => .removed a :: changesBy rows as []
  | rows, a :: as, b :: bs =>
    let narrower := rows.map List.tail
    if corner rows = corner narrower then .added b :: changesBy narrower (a :: as) bs
    else if corner rows = corner rows.tail then .removed a :: changesBy rows.tail as (b :: bs)
    else changesBy narrower.tail as bs
termination_by _ as bs => as.length + bs.length

def changedLines (old new : List String) : List LineChange :=
  let head := commonHead old new
  let old := old.drop head
  let new := new.drop head
  let tail := commonTail old new
  let old := (old.take (old.length - tail)).reverse
  let new := (new.take (new.length - tail)).reverse
  (changesBy (commonRows new old) old new).reverse

def changes (old new : String) : List LineChange :=
  let linesOf (s : String) := (Text.lines s.toList).map String.ofList
  changedLines (linesOf old) (linesOf new)

end SignatureInference.Diff
