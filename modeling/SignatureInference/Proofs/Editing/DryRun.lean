import SignatureInference.Proofs.Directories
import SignatureInference.Proofs.Editing.Step

/-! # Dry runs

A dry run does to its sources what an editor that writes does to the files. Both report the same,
and what the dry run would write is in the end what the other has written.
-/
namespace SignatureInference

/-- The known paths name files as one expects: a file that can be read can be written, paths that
lead to the same file are equal, and equal paths are read alike. -/
structure FileTree.Regular (t : FileTree) (known : Path → Prop) : Prop where
  writable : ∀ {p s}, known p → t.readText p = .ok s → ∀ new, ∃ u, t.write p (.text new) = .ok u
  distinct : ∀ {p q place}, known p → known q → t.resolve p = .ok place → t.resolve q = .ok place →
    t.isDirectory? place = some false → q.components = p.components
  alike : ∀ {p q}, known p → known q → q.components = p.components → t.readText q = t.readText p

def Index.Within (index : Index) (known : Path → Prop) : Prop :=
  ∀ e ∈ index.classes.values, ∀ p ∈ e.files, known p

instance (index : Index) (known : Path → Prop) [DecidablePred known] :
    Decidable (index.Within known) :=
  inferInstanceAs (Decidable (∀ e ∈ index.classes.values, ∀ p ∈ e.files, known p))

namespace Editor

/-- Carries out an instruction. If that fails, the editor is as it was. -/
def attempt (ed : Editor) (i : Instruction) : Editor × Except AnalysisError EditOutcome :=
  match ed.apply i with
  | .ok (ed', outcome) => (ed', .ok outcome)
  | .error e => (ed, .error e)

def attempts (ed : Editor) : List Instruction → Editor × List (Except AnalysisError EditOutcome)
  | [] => (ed, [])
  | i :: rest =>
    let first := ed.attempt i
    let later := first.1.attempts rest
    (later.1, first.2 :: later.2)

/-- A dry run on the files `t`, and an editor that has written what the dry run only keeps. -/
structure Shadows (t : FileTree) (known : Path → Prop) (dry fixed : Editor) : Prop where
  within : fixed.index.Within known
  index_eq : dry.index = fixed.index
  dryRun : dry.dryRun = true
  writes : fixed.dryRun = false
  files_eq : dry.files = t
  overlay_eq : fixed.overlay = ∅
  base_eq : fixed.files.base = t.base
  shape_eq : fixed.files.isDirectory? = t.isDirectory?
  source_eq : ∀ {p}, known p → dry.source p = (fixed.files.readText p).mapError .file
  readable : ∀ {p s}, known p → dry.source p = .ok s → ∃ old, t.readText p = .ok old

theorem known_of_fileOf {ed : Editor} {known : Path → Prop} (hindex : ed.index.Within known)
    {c : ClassName} {p : Path} (h : ed.fileOf c = .ok p) : known p := by
  have hfiles := classFiles_of_fileOf h
  unfold Index.classFiles at hfiles
  split at hfiles
  · next entry hentry =>
    refine hindex entry ?_ p (by simp [hfiles])
    exact List.mem_map.mpr ⟨_, SortedMap.mem_of_lookup hentry, rfl⟩
  · cases hfiles

section

variable {t : FileTree} {known : Path → Prop} {dry fixed : Editor}

theorem Shadows.source_fixed (h : Shadows t known dry fixed) {p : Path} (hp : known p) :
    fixed.source p = dry.source p := by
  rw [h.source_eq hp, source, h.overlay_eq]
  rfl

theorem Shadows.source_alike (ht : t.Regular known) (h : Shadows t known dry fixed) {p q : Path}
    (hp : known p) (hq : known q) (hpq : q.components = p.components) :
    dry.source q = dry.source p := by
  have hover : dry.overlay.source? q = dry.overlay.source? p := by
    unfold Overlay.source?
    rw [hpq]
  rw [source, source, hover, h.files_eq, ht.alike hp hq hpq]

theorem Shadows.exists_store (ht : t.Regular known) (h : Shadows t known dry fixed) {p : Path}
    (hp : known p) {old : String} (hold : dry.source p = .ok old) (new : String) :
    ∃ dry' fixed', dry.store p new = .ok dry' ∧ fixed.store p new = .ok fixed' ∧
      Shadows t known dry' fixed' := by
  have hread {q : Path} (hq : known q) {s : String} (hs : dry.source q = .ok s) :
      fixed.files.readText q = .ok s := by
    rw [h.source_eq hq] at hs
    exact mapError_eq_ok.mp hs
  have hresolves (q : Path) : fixed.files.resolve q = t.resolve q :=
    FileTree.resolve_congr h.base_eq h.shape_eq q
  obtain ⟨place, hplace, hfile⟩ := FileTree.exists_of_readText (hread hp hold)
  obtain ⟨first, hfirst⟩ := h.readable hp hold
  obtain ⟨u, hu⟩ := ht.writable hp hfirst new
  have hwrite : fixed.files.write p (.text new) = _ :=
    FileTree.write_of_shape h.base_eq h.shape_eq hplace hu
  refine ⟨{ dry with overlay := dry.overlay.set p new },
    { fixed with
      files := { fixed.files with nodes := fixed.files.nodes.insert place (.file (.text new)) } },
    ?_, ?_, ?_⟩
  · rw [store, if_pos h.dryRun]
  · rw [store, h.writes, hwrite, h.overlay_eq]
    rfl
  · refine ⟨h.within, h.index_eq, h.dryRun, h.writes, h.files_eq, h.overlay_eq, h.base_eq,
      (FileTree.isDirectory?_overwrite hfile).trans h.shape_eq, ?_, ?_⟩
    · intro q hq
      -- the overlay goes by the components of a path, the files by the place it leads to
      rw [FileTree.readText_overwrite hfile, source, source?_set]
      by_cases hqp : q.components = p.components
      · have hq' := hread hq ((h.source_alike ht hp hq hqp).trans hold)
        obtain ⟨place', hplace', -⟩ := FileTree.exists_of_readText hq'
        have hsame : place' = place := FileTree.resolve_unique hqp hplace hplace'
        rw [if_pos hqp, if_pos (hsame ▸ hplace')]
        rfl
      · have hother : ¬fixed.files.resolve q = .ok place := by
          intro hq'
          rw [hresolves] at hq' hplace
          refine hqp (ht.distinct hp hq hplace hq' ?_)
          rw [← h.shape_eq, FileTree.isDirectory?, hfile]
          rfl
        rw [if_neg hqp, if_neg hother]
        exact h.source_eq hq
    · intro q s hq hs
      by_cases hqp : q.components = p.components
      · rw [ht.alike hp hq hqp]
        exact ⟨first, hfirst⟩
      · rw [source, source?_set, if_neg hqp] at hs
        exact h.readable hq hs

/-- One instruction has the same outcome in both. -/
theorem Shadows.apply (ht : t.Regular known) (h : Shadows t known dry fixed) (i : Instruction) :
    (∃ e, dry.apply i = .error e ∧ fixed.apply i = .error e) ∨
      ∃ dry' fixed' outcome, dry.apply i = .ok (dry', outcome) ∧
      fixed.apply i = .ok (fixed', outcome) ∧
        Shadows t known dry' fixed' := by
  have hfiles : dry.fileOf i.className = fixed.fileOf i.className := by
    unfold fileOf
    rw [h.index_eq]
  rw [apply_eq, apply_eq, hfiles]
  cases hfile : fixed.fileOf i.className with
  | error r => exact .inr ⟨dry, fixed, .skipped r, rfl, rfl, h⟩
  | ok path =>
    have hknown : known path := known_of_fileOf h.within hfile
    dsimp only
    rw [h.source_fixed hknown]
    cases hsource : dry.source path with
    | error e => exact .inl ⟨e, rfl, rfl⟩
    | ok before =>
      simp only [bind, Except.bind]
      cases plan before i with
      | error e => exact .inl ⟨e, rfl, rfl⟩
      | ok made =>
        cases made with
        | error r => exact .inr ⟨dry, fixed, .skipped r, rfl, rfl, h⟩
        | ok made =>
          obtain ⟨dry', fixed', hdry, hfixed, h'⟩ := h.exists_store ht hknown hsource made.2
          refine .inr ⟨dry', fixed', .applied path made.1 before made.2, ?_, ?_, h'⟩
          · simp only [hdry]
            rfl
          · simp only [hfixed]
            rfl

/-- Any instructions have the same outcomes in both. -/
theorem Shadows.attempts (ht : t.Regular known) (h : Shadows t known dry fixed)
    (is : List Instruction) :
    (dry.attempts is).2 = (fixed.attempts is).2 ∧
      Shadows t known (dry.attempts is).1 (fixed.attempts is).1 := by
  induction is generalizing dry fixed with
  | nil => exact ⟨rfl, h⟩
  | cons i rest ih =>
    unfold Editor.attempts attempt
    rcases h.apply ht i with ⟨e, hdry, hfixed⟩ | ⟨dry', fixed', outcome, hdry, hfixed, h'⟩
    · obtain ⟨hsame, hrest⟩ := ih h
      rw [hdry, hfixed]
      exact ⟨congrArg (List.cons _) hsame, hrest⟩
    · obtain ⟨hsame, hrest⟩ := ih h'
      rw [hdry, hfixed]
      exact ⟨congrArg (List.cons _) hsame, hrest⟩

theorem Shadows.run (ht : t.Regular known) (h : Shadows t known dry fixed) (is : List Instruction) :
    (Revision.run dry is).results = (Revision.run fixed is).results ∧
      (Revision.run dry is).failure = (Revision.run fixed is).failure := by
  induction is generalizing dry fixed with
  | nil => exact ⟨rfl, rfl⟩
  | cons i rest ih =>
    unfold Revision.run
    rcases h.apply ht i with ⟨e, hdry, hfixed⟩ | ⟨dry', fixed', outcome, hdry, hfixed, h'⟩
    · rw [hdry, hfixed]
      exact ⟨rfl, rfl⟩
    · obtain ⟨hresults, hfailure⟩ := ih h'
      rw [hdry, hfixed]
      exact ⟨congrArg (List.cons _) hresults, hfailure⟩

end

/-- A dry run reports what an editor that writes reports, instruction by instruction, and leaves the
files alone. The source it has of a file in the end is the text that the other has written there. -/
theorem dryRun_simulates (index : Index) (t : FileTree) (known : Path → Prop)
    (hindex : index.Within known) (ht : t.Regular known) (is : List Instruction) :
    let dry : Editor := { index, dryRun := true, files := t }
    let fixed : Editor := { index, dryRun := false, files := t }
    (dry.attempts is).2 = (fixed.attempts is).2 ∧
      (∀ p, known p → (dry.attempts is).1.source p =
        ((fixed.attempts is).1.files.readText p).mapError .file) ∧
      (dry.attempts is).1.files = t ∧
      (fixed.attempts is).1.overlay = ∅ ∧
      (Revision.run dry is).results = (Revision.run fixed is).results ∧
      (Revision.run dry is).failure = (Revision.run fixed is).failure := by
  intro dry fixed
  have h : Shadows t known dry fixed := by
    refine ⟨hindex, rfl, rfl, rfl, rfl, rfl, rfl, rfl, fun _ => rfl, ?_⟩
    intro p s _ hs
    exact ⟨s, mapError_eq_ok.mp hs⟩
  obtain ⟨hsame, hend⟩ := h.attempts ht is
  exact ⟨hsame, fun p hp => hend.source_eq hp, hend.files_eq, hend.overlay_eq, h.run ht is⟩

def indexOf (a b : String) : Index where
  classes := .ofList [(.of "" "A", ⟨⟨"A"⟩, [⟨a⟩]⟩), (.of "" "B", ⟨⟨"B"⟩, [⟨b⟩]⟩)]

/-- The classes `A` and `B`, each with a method of the given signature. -/
def sourceOfBoth (a b : String) : String :=
  "<?php class A \x7b function " ++ a ++ " \x7b\x7d \x7d " ++
    "class B \x7b function " ++ b ++ " \x7b\x7d \x7d"

def filesOfBoth : FileTree :=
  .put {} ["src", "A.php"] (.file (.text (sourceOfBoth "f($x)" "f()")))

def typesOfBoth : List Instruction :=
  [⟨⟨"A"⟩, "f", .result, ⟨"int", false⟩⟩, ⟨⟨"B"⟩, "f", .result, ⟨"int", false⟩⟩,
    ⟨⟨"A"⟩, "f", .result, ⟨"int", false⟩⟩, ⟨⟨"A"⟩, "f", .parameter 0, ⟨"int", false⟩⟩]

/-- The file of `B` is missing, so its instruction fails between the others. -/
theorem dryRun_simulates_missing :
    let index := indexOf "src/A.php" "src/B.php"
    let dry : Editor := { index, dryRun := true, files := filesOfBoth }
    let fixed : Editor := { index, dryRun := false, files := filesOfBoth }
    (dry.attempts typesOfBoth).2 = (fixed.attempts typesOfBoth).2 ∧
      (dry.attempts typesOfBoth).1.source ⟨"src/A.php"⟩ =
        ((fixed.attempts typesOfBoth).1.files.readText ⟨"src/A.php"⟩).mapError .file ∧
      (dry.attempts typesOfBoth).2 =
        [.ok (.applied ⟨"src/A.php"⟩ 1
          (sourceOfBoth "f($x)" "f()") (sourceOfBoth "f($x): int" "f()")),
        .error (.file .missing),
        .ok (.skipped .resultHasType),
        .ok (.applied ⟨"src/A.php"⟩ 1
          (sourceOfBoth "f($x): int" "f()") (sourceOfBoth "f(int $x): int" "f()"))] := by
  have hmissing : filesOfBoth.resolve ⟨"src/B.php"⟩ = .error .missing := by decide +kernel
  have hregular : filesOfBoth.Regular fun p => p = ⟨"src/A.php"⟩ ∨ p = ⟨"src/B.php"⟩ := by
    refine ⟨?_, ?_, ?_⟩
    · intro p s _ hs new
      obtain ⟨u, hu, -⟩ := FileTree.exists_write (by decide +kernel) hs new
      exact ⟨u, hu⟩
    · rintro p q place (rfl | rfl) (rfl | rfl) hp hq -
      · rfl
      · rw [hmissing] at hq
        cases hq
      · rw [hmissing] at hp
        cases hp
      · rfl
    · rintro p q (rfl | rfl) (rfl | rfl) hpq
      · rfl
      · exact absurd hpq (by decide +kernel)
      · exact absurd hpq (by decide +kernel)
      · rfl
  have h := dryRun_simulates (indexOf "src/A.php" "src/B.php") filesOfBoth
    (fun p => p = ⟨"src/A.php"⟩ ∨ p = ⟨"src/B.php"⟩) (by decide +kernel) hregular typesOfBoth
  exact ⟨h.1, h.2.1 _ (.inl rfl), by decide +kernel⟩

/-- Two paths that differ only by a slash at the end are equal but are not read alike. An
instruction that a dry run carries out can then fail otherwise. -/
theorem dryRun_differs_at_slash :
    let index := indexOf "src/A.php" "src/A.php/"
    let dry : Editor := { index, dryRun := true, files := filesOfBoth }
    let fixed : Editor := { index, dryRun := false, files := filesOfBoth }
    filesOfBoth.WellFormed ∧ index.Within (·.components = [.name "src", .name "A.php"]) ∧
      (dry.attempts typesOfBoth).2[1]? = some (.ok (.applied ⟨"src/A.php/"⟩ 1
        (sourceOfBoth "f($x): int" "f()") (sourceOfBoth "f($x): int" "f(): int"))) ∧
      (fixed.attempts typesOfBoth).2[1]? = some (.error (.file .notDirectory)) := by
  decide +kernel

end Editor
end SignatureInference
