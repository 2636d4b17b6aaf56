import SignatureInference.Proofs.Directories
import SignatureInference.Proofs.Editing.Step
import SignatureInference.Proofs.Placement.Places
import SignatureInference.Proofs.Text.Positions

/-! # One instruction is one insertion

An instruction that is carried out puts its type at one place of one source, and nothing else
changes. An instruction that is passed over or that fails changes nothing. The offset that is found
in the masked source always lies between characters of the source, so no edit is faulty.
-/
namespace SignatureInference

namespace Editor

open Text Source Placement

/-- An instruction is refused or puts its type where it belongs, if the source can be searched. -/
theorem plan_cases (source : String) (i : Instruction) :
    (∃ e, plan source i = .error (.scan e)) ∨ (∃ r, plan source i = .ok (.error r)) ∨
      ∃ p, Belongs source.toList i p ∧
        plan source i = .ok (.ok ((takeBytes p source.toList).count '\n' + 1,
          String.ofList (insertAt p (insertedText i).toList source.toList))) := by
  unfold plan
  rw [locate_eq]
  cases hplace : placeIn (mask source.toList) i with
  | error e => exact .inl ⟨e, rfl⟩
  | ok found =>
    cases found with
    | error r => exact .inr (.inl ⟨r, rfl⟩)
    | ok p =>
      -- the offset was found in the masked source, but the edit is made in the source
      have hbelongs := belongs_of_placeIn hplace
      have hboundary := hbelongs.isBoundary
      refine .inr (.inr ⟨p, hbelongs, ?_⟩)
      simp only [Except.map, Except.mapError, bind, Except.bind, applyAll_insertion hboundary]
      rw [← line_positionOf]
      rfl

theorem source_ne_edit {ed : Editor} {path : Path} {x : EditError} :
    ed.source path ≠ .error (.edit x) := by
  unfold source
  split
  · intro h
    cases h
  · cases ed.files.readText path <;> simp [Except.mapError]

theorem store_ne_edit {ed : Editor} {path : Path} {new : String} {x : EditError} :
    ed.store path new ≠ .error (.edit x) := by
  unfold store
  split
  · intro h
    cases h
  · cases ed.files.write path (.text new) <;>
      simp [Except.mapError, bind, Except.bind, pure, Except.pure]

/-- One source was replaced and all else is as it was. -/
structure Replaced (ed : Editor) (path : Path) (new : String) (ed' : Editor) : Prop where
  index_eq : ed'.index = ed.index
  dryRun_eq : ed'.dryRun = ed.dryRun
  source_eq : ed'.source path = .ok new
  overlay_eq : ∀ q, q ≠ path.components → ed'.overlay.get? q = ed.overlay.get? q
  ofDryRun : ed.dryRun = true → ed'.files = ed.files
  ofFiles : ed.dryRun = false → ed'.overlay.get? path.components = none ∧
    ed'.files.readText path = .ok new ∧
    ∃ place, ed'.files.resolve path = .ok place ∧ ed'.files.base = ed.files.base ∧
      ∀ q, q ≠ place → ed'.files.node? q = ed.files.node? q

theorem replaced_of_store {ed ed' : Editor} {path : Path} {new : String}
    (h : ed.store path new = .ok ed') :
    Replaced ed path new ed' := by
  unfold store at h
  split at h
  · next hdry =>
    cases h
    refine ⟨rfl, rfl, ?_, ?_, fun _ => rfl, fun hfix => ?_⟩
    · refine source_of_overlay ?_
      rw [source?_set, if_pos rfl]
    · intro q hq
      exact (SortedMap.get?_alter ..).trans (if_neg hq)
    · rw [hdry] at hfix
      cases hfix
  · next hfix =>
    cases hwrite : ed.files.write path (.text new) with
    | error e =>
      rw [hwrite] at h
      cases h
    | ok files =>
      rw [hwrite] at h
      cases h
      obtain ⟨place, hresolve, hbase, hnode⟩ := FileTree.exists_of_write hwrite
      -- the path leads to the new file, also if the source was only kept beside the files before
      have hgone : (ed.overlay.erase path.components).get? path.components = none := by
        rw [SortedMap.get?_erase, if_pos rfl]
      have hread : files.readText path = .ok new := by
        rw [FileTree.readText_eq, hresolve]
        refine FileTree.textAt_eq_ok.mpr ?_
        rw [hnode, if_pos rfl]
      refine ⟨rfl, rfl, ?_, ?_, fun hdry => absurd hdry hfix, fun _ => ⟨hgone, hread, ?_⟩⟩
      · refine (source_of_files _ ?_).mpr hread
        rw [Overlay.source?, hgone]
        rfl
      · intro q hq
        rw [SortedMap.get?_erase, if_neg hq]
      · refine ⟨place, hresolve, hbase, fun q hq => ?_⟩
        rw [hnode, if_neg hq]

/-- An instruction was carried out: its type stands where it belongs, and only its file has
changed. -/
structure Inserted (ed : Editor) (i : Instruction) (path : Path) (line : Nat)
    (before after : String) (ed' : Editor) : Prop where
  file_eq : ed.fileOf i.className = .ok path
  source_eq : ed.source path = .ok before
  exists_place : ∃ p, Belongs before.toList i p ∧
    after.toList = takeBytes p before.toList ++ (insertedText i).toList ++
      dropBytes p before.toList ∧
    line = (takeBytes p before.toList).count '\n' + 1
  replaced : Replaced ed path after ed'

def TakenDown (i : Instruction) (path : Path) (before after : String) (c c' : Changes) : Prop :=
  (∃ known, c'.get? path.components = some known ∧ known.after = after ∧
    known.before = ((c.get? path.components).map (·.before)).getD before ∧
    known.instructions = ((c.get? path.components).map (·.instructions)).getD [] ++ [i]) ∧
  ∀ q, q ≠ path.components → c'.get? q = c.get? q

theorem takenDown_record (i : Instruction) (path : Path) (line : Nat) (before after : String)
    (c : Changes) :
    TakenDown i path before after c (c.record (i, .applied path line before after)) := by
  unfold Changes.record
  constructor
  · rw [SortedMap.get?_alter, if_pos rfl]
    cases c.get? path.components with
    | none => exact ⟨_, rfl, rfl, rfl, rfl⟩
    | some known => exact ⟨_, rfl, rfl, rfl, rfl⟩
  · intro q hq
    rw [SortedMap.get?_alter, if_neg hq]

/-- What can become of an instruction. What is carried out was stored. -/
theorem apply_steps (ed : Editor) (i : Instruction) :
    (∃ e, ed.apply i = .error e ∧ ∀ x, e ≠ .edit x) ∨ (∃ r, ed.apply i = .ok (ed, .skipped r)) ∨
      ∃ ed' path line before after, ed.apply i = .ok (ed', .applied path line before after) ∧
        Inserted ed i path line before after ed' ∧ ed.store path after = .ok ed' := by
  rw [apply_eq]
  cases hfile : ed.fileOf i.className with
  | error r => exact .inr (.inl ⟨r, rfl⟩)
  | ok path =>
    dsimp only
    cases hsource : ed.source path with
    | error e =>
      refine .inl ⟨e, rfl, ?_⟩
      rintro x rfl
      exact source_ne_edit hsource
    | ok before =>
      simp only [bind, Except.bind]
      rcases plan_cases before i with ⟨e, hplan⟩ | ⟨r, hplan⟩ | ⟨p, hbelongs, hplan⟩
      · rw [hplan]
        exact .inl ⟨_, rfl, by simp⟩
      · rw [hplan]
        exact .inr (.inl ⟨r, rfl⟩)
      · rw [hplan]
        cases hstore : ed.store path
          (String.ofList (insertAt p (insertedText i).toList before.toList)) with
        | error e =>
          refine .inl ⟨e, by simp only [hstore], ?_⟩
          rintro x rfl
          exact store_ne_edit hstore
        | ok ed' =>
          refine .inr (.inr ⟨ed', path, _, before, _,
            by simp only [hstore]; rfl, ⟨hfile, hsource, ?_, replaced_of_store hstore⟩, hstore⟩)
          refine ⟨p, hbelongs, ?_, rfl⟩
          rw [String.toList_ofList, insertAt, List.append_assoc]

theorem apply_cases (ed : Editor) (i : Instruction) :
    (∃ e, ed.apply i = .error e ∧ ∀ x, e ≠ .edit x) ∨ (∃ r, ed.apply i = .ok (ed, .skipped r)) ∨
      ∃ ed' path line before after, ed.apply i = .ok (ed', .applied path line before after) ∧
        Inserted ed i path line before after ed' := by
  rcases apply_steps ed i with
    herror | hskipped | ⟨ed', path, line, before, after, happly, hinserted, -⟩
  · exact .inl herror
  · exact .inr (.inl hskipped)
  · exact .inr (.inr ⟨ed', path, line, before, after, happly, hinserted⟩)

theorem inserted_of_apply {ed ed' : Editor} {i : Instruction} {path : Path} {line : Nat}
    {before after : String} (h : ed.apply i = .ok (ed', .applied path line before after)) :
    Inserted ed i path line before after ed' ∧ ed.store path after = .ok ed' := by
  rcases apply_steps ed i with ⟨e, happly, -⟩ | ⟨r, happly⟩ | ⟨_, _, _, _, _, happly, hsteps⟩
  · rw [h] at happly
    cases happly
  · rw [h] at happly
    cases happly
  · rw [h] at happly
    cases happly
    exact hsteps

/-- One instruction is one insertion, or nothing. What is carried out is taken down as one change;
what is passed over is not taken down; what fails ends the revision with the editor as it was, and
never because an edit is faulty. -/
theorem apply_inserts_once (ed : Editor) (i : Instruction) :
    match ed.apply i with
    | .ok (ed', .applied path line before after) =>
      Inserted ed i path line before after ed' ∧
        ∀ c : Changes, TakenDown i path before after c
          (c.record (i, .applied path line before after))
    | .ok (ed', .skipped r) => ed' = ed ∧ ∀ c : Changes, c.record (i, .skipped r) = c
    | .error e =>
      (∀ x, e ≠ .edit x) ∧ ∀ rest, Revision.run ed (i :: rest) = ⟨ed, [], some (i, e)⟩ := by
  rcases apply_cases ed i with
    ⟨e, happly, hedit⟩ | ⟨r, happly⟩ | ⟨ed', path, line, before, after, happly, h⟩
  · rw [happly]
    refine ⟨hedit, fun rest => ?_⟩
    rw [Revision.run, happly]
  · rw [happly]
    exact ⟨rfl, fun c => rfl⟩
  · rw [happly]
    exact ⟨h, takenDown_record i path line before after⟩

end Editor
end SignatureInference
