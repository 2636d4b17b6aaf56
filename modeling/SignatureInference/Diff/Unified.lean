import SignatureInference.Diff.Shortest
import SignatureInference.Diff.Slide

/-! # Unified diffs

A unified diff shows the changed lines of a text in hunks, with a few unchanged lines around them.
-/
namespace SignatureInference.Diff

/-- Joins neighbouring blocks: kept ones become one, and deleted and inserted ones become a replaced
one. -/
def joinBlocks : List Block → List Block
  | [] => []
  | b :: bs =>
    match joinBlocks bs with
    | [] => [b]
    | next :: rest =>
      match b.kind, next.kind with
      | .keep, .keep => b.join next :: rest
      | .keep, _ | _, .keep => b :: next :: rest
      | .delete, .delete | .insert, .insert => b.join next :: rest
      | .delete, _ =>
        ⟨.replace, b.oldStart, b.oldCount + next.oldCount, next.newStart, next.newCount⟩ :: rest
      | _, _ =>
        ⟨.replace, next.oldStart, next.oldCount, b.newStart, b.newCount + next.newCount⟩ :: rest

def blocks (old new : List String) : List Block := joinBlocks (slide old new (shortest old new))

/-- The number of unchanged lines around changed ones. -/
def contextLines : Nat := 3

def Block.lastOf (b : Block) (n : Nat) : Block :=
  if b.kind = .keep then b.shrinkDown (b.oldCount - n) else b

def Block.firstOf (b : Block) (n : Nat) : Block :=
  if b.kind = .keep then b.shrinkUp (b.oldCount - n) else b

/-- Puts blocks into groups. A long kept block ends a group and begins the next one. -/
def groups (context : Nat) : (group : List Block) → List Block → List (List Block)
  | group, [] =>
    match group with
    | [] => []
    | [b] => if b.kind = .keep then [] else [[b]]
    | _ => [group.reverse]
  | group, b :: bs =>
    if b.kind = .keep && b.oldCount > 2 * context then
      (b.firstOf context :: group).reverse :: groups context [b.lastOf context] bs
    else groups context (b :: group) bs

/-- The groups of blocks that a unified diff shows. -/
def hunks (context : Nat) (blocks : List Block) : List (List Block) :=
  let blocks :=
    match blocks with
    | [] => []
    | b :: bs => b.lastOf context :: bs
  let blocks :=
    match blocks.getLast? with
    | none => []
    | some b => blocks.dropLast ++ [b.firstOf context]
  groups context [] blocks

def rangeText (start stop : Nat) : String :=
  match stop - start with
  | 0 => s!"{start},0"
  | 1 => s!"{start + 1}"
  | count => s!"{start + 1},{count}"

def hunkHead (hunk : List Block) : String :=
  match hunk.head?, hunk.getLast? with
  | some a, some b =>
    let old := rangeText a.oldStart b.oldStop
    let new := rangeText a.newStart b.newStop
    s!"@@ -{old} +{new} @@\n"
  | _, _ => ""

/-- A line of a hunk with its sign. A line without an ending is followed by an empty line. -/
def signedLine (sign line : String) : String :=
  let ended := line.toList.getLast?.any fun c => c == '\n' || c == '\r'
  sign ++ line ++ if ended then "" else "\n\n"

def blockText (old new : List String) (b : Block) : String :=
  if b.kind = .keep then String.join ((b.oldPart old).map (signedLine " "))
  else
    String.join ((b.oldPart old).map (signedLine "-")) ++
      String.join ((b.newPart new).map (signedLine "+"))

/-- The lines of a text with their endings: a line feed, a carriage return, or both in the other
order. -/
def linesWithEndings (cs : List Char) : List (List Char) :=
  match cs with
  | [] => []
  | '\n' :: cs => ['\n'] :: linesWithEndings cs
  | '\r' :: '\n' :: cs => ['\r', '\n'] :: linesWithEndings cs
  | '\r' :: cs => ['\r'] :: linesWithEndings cs
  | c :: cs =>
    match linesWithEndings cs with
    | [] => [[c]]
    | line :: rest => (c :: line) :: rest

def unified (path old new : String) : String :=
  let linesOf (s : String) := (linesWithEndings s.toList).map String.ofList
  let oldLines := linesOf old
  let newLines := linesOf new
  let hunkText (hunk : List Block) :=
    hunkHead hunk ++ String.join (hunk.map (blockText oldLines newLines))
  s!"--- a/{path}\n+++ b/{path}\n" ++
    String.join ((hunks contextLines (blocks oldLines newLines)).map hunkText)

end SignatureInference.Diff
