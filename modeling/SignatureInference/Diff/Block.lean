/-! # Blocks of a diff

A diff of two lists is a list of blocks. A block tells what became of some neighbouring elements:
they were kept, deleted, inserted, or replaced by others.
-/
namespace SignatureInference.Diff

variable {α : Type}

section

variable [DecidableEq α]

/-- The number of elements that two lists have in common at their heads. -/
def commonHead : List α → List α → Nat
  | a :: as, b :: bs => if a = b then commonHead as bs + 1 else 0
  | _, _ => 0

theorem commonHead_le_left (as bs : List α) : commonHead as bs ≤ as.length := by
  induction as generalizing bs with
  | nil => simp [commonHead]
  | cons a as ih =>
    cases bs with
    | nil => simp [commonHead]
    | cons b bs =>
      have := ih bs
      simp only [commonHead, List.length_cons]
      split <;> omega

def commonTail (as bs : List α) : Nat := commonHead as.reverse bs.reverse

theorem commonTail_le_left (as bs : List α) : commonTail as bs ≤ as.length := by
  simpa [commonTail] using commonHead_le_left as.reverse bs.reverse

end

/-- What became of the elements of a block. -/
inductive Kind where
  | keep
  | delete
  | insert
  | replace
  deriving DecidableEq, Repr

/-- A block of a diff with its places in the old and the new list. -/
structure Block where
  kind : Kind
  oldStart : Nat
  oldCount : Nat
  newStart : Nat
  newCount : Nat
  deriving DecidableEq, Repr

namespace Block

/-- A block of `count` elements that both lists have. -/
def kept (oldStart newStart count : Nat) : Block := ⟨.keep, oldStart, count, newStart, count⟩

/-- A block of `count` elements of the old list only. -/
def deleted (oldStart count newStart : Nat) : Block := ⟨.delete, oldStart, count, newStart, 0⟩

/-- A block of `count` elements of the new list only. -/
def inserted (oldStart newStart count : Nat) : Block := ⟨.insert, oldStart, 0, newStart, count⟩

def oldStop (b : Block) : Nat := b.oldStart + b.oldCount

def newStop (b : Block) : Nat := b.newStart + b.newCount

def isEmpty (b : Block) : Bool := b.oldCount == 0 && b.newCount == 0

def oldPart (b : Block) (old : List α) : List α := (old.drop b.oldStart).take b.oldCount

def newPart (b : Block) (new : List α) : List α := (new.drop b.newStart).take b.newCount

theorem length_oldPart_le (b : Block) (old : List α) : (b.oldPart old).length ≤ b.oldCount := by
  simp only [oldPart, List.length_take]
  omega

end Block
end SignatureInference.Diff
