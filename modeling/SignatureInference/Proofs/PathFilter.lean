import SignatureInference.PathFilter
import SignatureInference.Proofs.Text.Search
import SignatureInference.Proofs.Text.Splitting
import SignatureInference.Proofs.Text.Trimming

/-! # Paths below a directory

A directory pattern is looked for in the text of a path, with a slash behind it and a slash or
nothing in front of it. What is found that way is always a whole component of the path, and never
the last one. Each pattern of a filter leaves out paths on its own.
-/
namespace SignatureInference

namespace Text

variable {s : Char} {piece cs : List Char}

/-- A piece with a separator behind it stands at the front of a text, or behind another
separator. -/
theorem mem_dropLast_splitWhere_iff (hpiece : s ∉ piece) :
    piece ∈ (splitWhere (· == s) cs).dropLast ↔ s :: (piece ++ [s]) <:+: cs ∨
      piece ++ [s] <+: cs := by
  have hone : splitWhere (· == s) piece = [piece] := by
    apply splitWhere_of_not_mem
    intro c hc
    rw [beq_eq_false_iff_ne]
    rintro rfl
    exact hpiece hc
  have hfront : ∀ v, splitWhere (· == s) (piece ++ s :: v) = piece :: splitWhere (· == s) v := by
    intro v
    rw [splitWhere_append (by simp), hone]
    rfl
  constructor
  · intro hmem
    obtain ⟨front, back, hcut⟩ := List.append_of_mem hmem
    obtain ⟨last, hlast⟩ : ∃ last, splitWhere (· == s) cs = front ++ piece :: (back ++ [last]) := by
      refine ⟨(splitWhere (· == s) cs).getLast (splitWhere_ne_nil _ _), ?_⟩
      rw [← List.cons_append, ← List.append_assoc, ← hcut, List.dropLast_append_getLast]
    have hpieces : [s].intercalate (piece :: (back ++ [last])) =
        piece ++ s :: [s].intercalate (back ++ [last]) := by
      rw [List.intercalate_cons_of_ne_nil (by simp), List.append_assoc]
      rfl
    have hcs := intercalate_splitWhere s cs
    rw [hlast] at hcs
    by_cases hnil : front = []
    · subst hnil
      rw [List.nil_append, hpieces] at hcs
      exact .inr ⟨[s].intercalate (back ++ [last]), by simp [← hcs]⟩
    · rw [intercalate_append hnil (by simp), hpieces] at hcs
      exact .inl ⟨[s].intercalate front, [s].intercalate (back ++ [last]), by simp [← hcs]⟩
  · rintro (⟨u, v, rfl⟩ | ⟨v, rfl⟩)
    · have hcut : u ++ s :: (piece ++ [s]) ++ v = u ++ s :: (piece ++ s :: v) := by simp
      rw [hcut, splitWhere_append (by simp), hfront,
        List.dropLast_append_of_ne_nil (by simp),
        List.dropLast_cons_of_ne_nil (splitWhere_ne_nil _ _)]
      exact List.mem_append_right _ List.mem_cons_self
    · rw [List.append_assoc, List.singleton_append, hfront,
        List.dropLast_cons_of_ne_nil (splitWhere_ne_nil _ _)]
      exact List.mem_cons_self

end Text

namespace PathFilter

open Text

/-- A path lies below a directory if one of its components other than the last is the directory's
name. -/
def LiesBelow (directory path : String) : Prop :=
  directory ∈ ((splitWhere (· == '/') path.toList).map String.ofList).dropLast

instance (directory path : String) : Decidable (LiesBelow directory path) :=
  inferInstanceAs (Decidable (_ ∈ _))

theorem liesBelow_iff {directory path : String} :
    LiesBelow directory path ↔ directory.toList ∈ (splitWhere (· == '/') path.toList).dropLast := by
  rw [LiesBelow, ← List.map_dropLast, List.mem_map]
  constructor
  · rintro ⟨piece, hpiece, rfl⟩
    rwa [String.toList_ofList]
  · intro h
    exact ⟨_, h, String.ofList_toList⟩

theorem patternExcludes_directory {directory : String} (h : '/' ∉ directory.toList)
    (path : String) :
    patternExcludes (directory ++ "/") path =
      (contains ('/' :: directory.toList ++ ['/']) path.toList ||
        startsWith (directory.toList ++ ['/']) path.toList) := by
  have htext : (directory ++ "/").toList = directory.toList ++ ['/'] := by simp
  have hslash : dropLast? ['/'] (directory.toList ++ ['/']) = some directory.toList := by
    simp [dropLast?, dropHead?]
  have hend : directory.toList.getLast?.any (· == '/') = false := by
    cases hlast : directory.toList.getLast? with
    | none => rfl
    | some c =>
      rw [Option.any_some, beq_eq_false_iff_ne]
      rintro rfl
      exact h (List.mem_of_getLast? hlast)
  have hname : dropEndWhile (· == '/') (directory.toList ++ ['/']) = directory.toList := by
    have hdrop : dropEndWhile (· == '/') (directory.toList ++ ['/']) =
        dropEndWhile (· == '/') directory.toList := by simp [dropEndWhile]
    rw [hdrop, dropEndWhile_of_last hend]
  simp only [patternExcludes, htext, hslash, hname]

theorem patternExcludes_iff_liesBelow {directory : String} (h : '/' ∉ directory.toList)
    (path : String) :
    patternExcludes (directory ++ "/") path = true ↔ LiesBelow directory path := by
  rw [patternExcludes_directory h, Bool.or_eq_true, contains_iff, startsWith_iff, liesBelow_iff,
    mem_dropLast_splitWhere_iff h, List.cons_append]

theorem excludes_singleton (pattern path : String) :
    excludes ⟨[pattern]⟩ path = patternExcludes pattern path := by
  simp [excludes]

theorem excludes_iff {f : PathFilter} {path : String} :
    f.excludes path = true ↔ ∃ pattern ∈ f.patterns, patternExcludes pattern path = true :=
  List.any_eq_true

/-- The pattern of a directory leaves out exactly the paths below it. A filter leaves out what one
of its patterns leaves out alone, and more patterns never take a path back in. -/
theorem excludes_below_directory (f : PathFilter) (path : String) :
    (∀ directory : String, '/' ∉ directory.toList →
      (excludes ⟨[directory ++ "/"]⟩ path = true ↔ LiesBelow directory path)) ∧
    (f.excludes path = true ↔ ∃ pattern ∈ f.patterns, excludes ⟨[pattern]⟩ path = true) ∧
    ∀ g : PathFilter, f.patterns ⊆ g.patterns → f.excludes path = true →
      g.excludes path = true := by
  refine ⟨?_, ?_, ?_⟩
  · intro directory h
    rw [excludes_singleton, patternExcludes_iff_liesBelow h]
  · simp only [excludes_singleton]
    exact excludes_iff
  · intro g hsub hexcludes
    obtain ⟨pattern, hpattern, hpath⟩ := excludes_iff.mp hexcludes
    exact excludes_iff.mpr ⟨pattern, hsub hpattern, hpath⟩

theorem excludes_below_vendor :
    excludes ⟨["vendor/"]⟩ "/app/vendor/a.php" = true ∧
      ¬excludes ⟨["vendor/"]⟩ "/vendors//vendor" = true ∧
      excludes ⟨["*.txt", "vendor/"]⟩ "/app/vendor/a.php" = true := by
  have hname : '/' ∉ "vendor".toList := by decide
  have hbelow := (excludes_below_directory {} "/app/vendor/a.php").1 "vendor" hname
  have haside := (excludes_below_directory {} "/vendors//vendor").1 "vendor" hname
  have hmore := (excludes_below_directory ⟨["vendor/"]⟩ "/app/vendor/a.php").2.2
    ⟨["*.txt", "vendor/"]⟩ (by simp)
  exact ⟨hbelow.mpr (by decide), mt haside.mp (by decide), hmore (hbelow.mpr (by decide))⟩

end PathFilter
end SignatureInference
