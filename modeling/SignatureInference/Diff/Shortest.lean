import SignatureInference.Diff.Middle

/-! # Shortest diffs

The blocks of a diff with as few deleted and inserted elements as possible, found by cutting a
shortest way in two until its parts are trivial.
-/
namespace SignatureInference.Diff

variable {α : Type} [DecidableEq α]

/-- A block of kept elements, unless there are none. -/
def keptBlocks (oldStart newStart count : Nat) : List Block :=
  if count = 0 then [] else [.kept oldStart newStart count]

/-- The blocks from `old` to `new`, which begin at the given places. Both lists are cut at most
`depth` times. -/
def blocksFrom : (depth oldStart newStart : Nat) → (old new : List α) → List Block
  | depth, oldStart, newStart, old, new =>
    let head := commonHead old new
    let oldRest := old.drop head
    let newRest := new.drop head
    let tail := commonTail oldRest newRest
    let oldPart := oldRest.take (oldRest.length - tail)
    let newPart := newRest.take (newRest.length - tail)
    let i := oldStart + head
    let j := newStart + head
    let different :=
      match oldPart, newPart with
      | [], [] => []
      | _, [] => [.deleted i oldPart.length j]
      | [], _ => [.inserted i j newPart.length]
      | _, _ =>
        match depth, middle? oldPart newPart with
        | depth + 1, some (x, y) =>
          blocksFrom depth i j (oldPart.take x) (newPart.take y) ++
            blocksFrom depth (i + x) (j + y) (oldPart.drop x) (newPart.drop y)
        | _, _ => [.deleted i oldPart.length j, .inserted i j newPart.length]
    keptBlocks oldStart newStart head ++ different ++
      keptBlocks (i + oldPart.length) (j + newPart.length) tail

/-- The blocks from `old` to `new`. Each part of a cut list is shorter, so that the cuts do not run
out. -/
def shortest (old new : List α) : List Block := blocksFrom (old.length + new.length) 0 0 old new

end SignatureInference.Diff
