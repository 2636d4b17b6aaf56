import SignatureInference.Text.Basic

/-! # Searching

A pattern reads something off the front of a text and gives what it read and what follows. It is
searched for from left to right, and the search goes on after each occurrence. So does the search
for a word that is to be replaced.
-/
namespace SignatureInference.Text

/-- What a pattern reads in a text whose first `skip` characters are passed over. -/
def findAllFrom {α : Type} (pattern : List Char → Option (α × List Char)) (skip : Nat) :
    List Char → List α
  | [] => []
  | c :: cs =>
    match skip with
    | skip + 1 => findAllFrom pattern skip cs
    | 0 =>
      match pattern (c :: cs) with
      | some (found, rest) => found :: findAllFrom pattern (cs.length - rest.length) cs
      | none => findAllFrom pattern 0 cs

def findAll {α : Type} (pattern : List Char → Option (α × List Char)) (cs : List Char) : List α :=
  findAllFrom pattern 0 cs

/-- A text whose first `skip` characters are dropped, with `new` for each occurrence of `old` in the
rest. -/
def replaceFrom (old new : List Char) (skip : Nat) : List Char → List Char
  | [] => []
  | c :: cs =>
    match skip with
    | skip + 1 => replaceFrom old new skip cs
    | 0 =>
      if startsWith old (c :: cs) then new ++ replaceFrom old new (old.length - 1) cs
      else c :: replaceFrom old new 0 cs

/-- A text with `new` for each occurrence of `old`, which is not empty. -/
def replaceAll (old new cs : List Char) : List Char := replaceFrom old new 0 cs

end SignatureInference.Text
