import SignatureInference.Diff.Block

/-! # Sliding blocks

An inserted block that ends like the kept block before it may as well stand higher up, and one that
begins like the kept block after it may stand lower down. Every block is moved up as far as it goes
and then down as far as it goes; on the way it joins the blocks of its kind.
-/
namespace SignatureInference.Diff

namespace Block

/-- Makes a block begin earlier. -/
def growUp (b : Block) (n : Nat) : Block :=
  { b with oldStart := b.oldStart - n, oldCount := b.oldCount + n,
           newStart := b.newStart - n, newCount := b.newCount + n }

/-- Makes a kept block end later. -/
def growDown (b : Block) (n : Nat) : Block :=
  { b with oldCount := b.oldCount + n, newCount := b.newCount + n }

/-- Makes a kept block end earlier. -/
def shrinkUp (b : Block) (n : Nat) : Block :=
  { b with oldCount := b.oldCount - n, newCount := b.newCount - n }

/-- Makes a kept block begin later. -/
def shrinkDown (b : Block) (n : Nat) : Block :=
  { b with oldStart := b.oldStart + n, oldCount := b.oldCount - n,
           newStart := b.newStart + n, newCount := b.newCount - n }

def moveUp (b : Block) (n : Nat) : Block :=
  { b with oldStart := b.oldStart - n, newStart := b.newStart - n }

def moveDown (b : Block) (n : Nat) : Block :=
  { b with oldStart := b.oldStart + n, newStart := b.newStart + n }

/-- A block with the elements of the next one, which is of the same kind. -/
def join (b next : Block) : Block :=
  { b with oldCount := b.oldCount + next.oldCount, newCount := b.newCount + next.newCount }

end Block

/-- A block with the blocks before it, nearest first, and the blocks after it. -/
structure Slider where
  above : List Block
  block : Block
  below : List Block
  deriving DecidableEq, Repr

/-- How far a block can slide over other blocks: a bound on the number of steps. -/
def reachOver : List Block → Nat
  | [] => 0
  | b :: bs => b.oldCount + 1 + reachOver bs

variable {α : Type} [DecidableEq α]

def slideUp (old new : List α) (above : List Block) (b : Block) (below : List Block) : Slider :=
  match above with
  | [] => ⟨above, b, below⟩
  | p :: ps =>
    if p.kind = .keep then
      let n := commonTail (p.oldPart old) (b.newPart new)
      if n = 0 then
        if p.isEmpty then slideUp old new ps b below else ⟨above, b, below⟩
      else
        let passed :=
          match below with
          | q :: qs =>
            if q.kind = .keep then q.growUp n :: qs
            else .kept (p.oldStop - n) (b.newStop - n) n :: q :: qs
          | [] => [.kept (p.oldStop - n) (b.newStop - n) n]
        let left := p.shrinkUp n
        slideUp old new (if left.isEmpty then ps else left :: ps) (b.moveUp n) passed
    else if p.kind = b.kind then slideUp old new ps (p.join b) below
    else slideUp old new ps b (p :: below)
termination_by reachOver above
decreasing_by
  · simp only [reachOver]; omega
  · have h := commonTail_le_left (p.oldPart old) (b.newPart new)
    have h' := p.length_oldPart_le old
    split <;> simp only [reachOver, Block.shrinkUp] <;> omega
  · simp only [reachOver]; omega
  · simp only [reachOver]; omega

def slideDown (old new : List α) (above : List Block) (b : Block) (below : List Block) : Slider :=
  match below with
  | [] => ⟨above, b, below⟩
  | q :: qs =>
    if q.kind = .keep then
      let n := commonHead (q.oldPart old) (b.newPart new)
      if n = 0 then
        if q.isEmpty then slideDown old new above b qs else ⟨above, b, below⟩
      else
        let passed :=
          match above with
          | p :: ps =>
            if p.kind = .keep then p.growDown n :: ps else .kept q.oldStart b.newStart n :: p :: ps
          | [] => [.kept q.oldStart b.newStart n]
        let left := q.shrinkDown n
        slideDown old new passed (b.moveDown n) (if left.isEmpty then qs else left :: qs)
    else if q.kind = b.kind then slideDown old new above (b.join q) qs
    else slideDown old new (q :: above) b qs
termination_by reachOver below
decreasing_by
  · simp only [reachOver]; omega
  · have h := commonHead_le_left (q.oldPart old) (b.newPart new)
    have h' := q.length_oldPart_le old
    split <;> simp only [reachOver, Block.shrinkDown] <;> omega
  · simp only [reachOver]; omega
  · simp only [reachOver]; omega

/-- Slides the blocks of one kind, from the first to the last, at most `rounds` blocks. -/
def slideKind (old new : List α) (kind : Kind) :
    (rounds : Nat) → (above below : List Block) → List Block
  | rounds + 1, above, b :: below =>
    if b.kind = kind then
      let up := slideUp old new above b below
      let down := slideDown old new up.above up.block up.below
      slideKind old new kind rounds (down.block :: down.above) down.below
    else slideKind old new kind rounds (b :: above) below
  | _, above, below => above.reverse ++ below

/-- Slides the deleted blocks and then the inserted blocks. With every round the blocks that are
left hold fewer elements. -/
def slide (old new : List α) (blocks : List Block) : List Block :=
  let rounds := old.length + new.length + blocks.length
  slideKind old new .insert rounds [] (slideKind old new .delete rounds [] blocks)

end SignatureInference.Diff
