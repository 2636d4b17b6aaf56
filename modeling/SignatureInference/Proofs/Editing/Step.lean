import SignatureInference.Proofs.FileTree
import SignatureInference.Proofs.Placement.Located
import SignatureInference.Revision

/-! # Carrying out one instruction

An instruction that has a slot in its file is carried out: the file then has the type in that slot,
and whoever reads another file reads what was there before.
-/
namespace SignatureInference.Editor

open Text Source Placement

variable {ed : Editor}

theorem mapError_eq_ok {α ε ε' : Type} {f : ε → ε'} {x : Except ε α} {a : α} :
    x.mapError f = .ok a ↔ x = .ok a := by
  cases x <;> simp [Except.mapError]

theorem classFiles_of_fileOf {c : ClassName} {p : Path} (h : ed.fileOf c = .ok p) :
    ed.index.classFiles c.namespaceName c.shortName = [p] := by
  unfold fileOf at h
  split at h
  · next hfiles =>
    cases h
    exact hfiles
  · cases h
  · cases h

/-- The files form a file system, and outside a dry run no sources are kept beside them. -/
def Sound (ed : Editor) : Prop := ed.files.WellFormed ∧ (ed.dryRun = true ∨ ed.overlay = ∅)

instance (ed : Editor) : Decidable ed.Sound := inferInstanceAs (Decidable (_ ∧ _))

/-- After a source was stored, every source that could be read is as before, or it was the one that
was replaced. -/
structure Stored (ed : Editor) (old new : String) (ed' : Editor) : Prop where
  sound : ed'.Sound
  index_eq : ed'.index = ed.index
  source_cases : ∀ {q s}, ed.source q = .ok s →
    ed'.source q = .ok s ∨ s = old ∧ ed'.source q = .ok new

theorem source?_set (o : Overlay) (p q : Path) (s : String) :
    (o.set p s).source? q = if q.components = p.components then some s else o.source? q := by
  unfold Overlay.source? Overlay.set
  rw [SortedMap.get?_alter]
  split <;> rfl

theorem source_eq_of_components {p q : Path} {s s' : String} (hpq : q.components = p.components)
    (hp : ed.source p = .ok s) (hq : ed.source q = .ok s') : s' = s := by
  unfold source Overlay.source? at hp hq
  rw [hpq] at hq
  cases ho : ed.overlay.get? p.components with
  | some known =>
    rw [ho] at hp hq
    cases hp
    cases hq
    rfl
  | none =>
    rw [ho] at hp hq
    exact FileTree.readText_unique hpq (mapError_eq_ok.mp hp) (mapError_eq_ok.mp hq)

theorem source_of_overlay {p : Path} {s : String} (h : ed.overlay.source? p = some s) :
    ed.source p = .ok s := by
  rw [source, h]

theorem source_of_files (ed : Editor) {p : Path} (h : ed.overlay.source? p = none) {s : String} :
    ed.source p = .ok s ↔ ed.files.readText p = .ok s := by
  rw [source, h]
  exact mapError_eq_ok

theorem exists_store_dryRun (hed : ed.Sound) (hdry : ed.dryRun = true) {p : Path} {old : String}
    (h : ed.source p = .ok old) (new : String) :
    ∃ ed', ed.store p new = .ok ed' ∧ Stored ed old new ed' ∧ ed'.source p = .ok new := by
  have hset (q : Path) : ({ ed with overlay := ed.overlay.set p new } : Editor).overlay.source? q =
      if q.components = p.components then some new else ed.overlay.source? q := source?_set _ _ _ _
  refine ⟨{ ed with overlay := ed.overlay.set p new }, by rw [store, if_pos hdry],
    ⟨⟨hed.1, .inl hdry⟩, rfl, fun {q s} hq => ?_⟩, source_of_overlay (by rw [hset, if_pos rfl])⟩
  by_cases hqp : q.components = p.components
  · exact .inr ⟨source_eq_of_components hqp h hq, source_of_overlay (by rw [hset, if_pos hqp])⟩
  · left
    rw [source, hset, if_neg hqp]
    exact hq

theorem exists_store_files (hed : ed.Sound) (hdry : ed.dryRun = false) {p : Path} {old : String}
    (h : ed.source p = .ok old) (new : String) :
    ∃ ed', ed.store p new = .ok ed' ∧ Stored ed old new ed' ∧ ed'.source p = .ok new := by
  have hempty : ed.overlay = ∅ := hed.2.resolve_left (by simp [hdry])
  have hnone (q : Path) : ed.overlay.source? q = none := by rw [hempty]; rfl
  have herase : ed.overlay.erase p.components = ∅ := by rw [hempty]; rfl
  obtain ⟨files, hwrite, hwf, hnew, hother⟩ :=
    FileTree.exists_write hed.1 ((source_of_files ed (hnone p)).mp h) new
  refine ⟨{ ed with files, overlay := ∅ }, ?_, ⟨⟨hwf, .inr rfl⟩, rfl, fun {q s} hq => ?_⟩,
    (source_of_files _ rfl).mpr hnew⟩
  · rw [store, hdry, hwrite, herase]
    rfl
  · rw [source_of_files _ rfl, source_of_files _ rfl]
    have hq := (source_of_files ed (hnone q)).mp hq
    rcases hother q with hsame | ⟨hold, hnew⟩
    · exact .inl (hsame.trans hq)
    · rw [hq] at hold
      exact .inr ⟨Except.ok.inj hold, hnew⟩

theorem exists_store (hed : ed.Sound) {p : Path} {old : String} (h : ed.source p = .ok old)
    (new : String) :
    ∃ ed', ed.store p new = .ok ed' ∧ Stored ed old new ed' ∧ ed'.source p = .ok new := by
  cases hdry : ed.dryRun with
  | true => exact exists_store_dryRun hed hdry h new
  | false => exact exists_store_files hed hdry h new

theorem applyAll_insertion {s : String} {n : Nat} (h : isBoundary s.toList n = true) (t : String) :
    Edit.applyAll s [.insertion n t] = .ok (String.ofList (insertAt n t.toList s.toList)) := by
  refine Edit.applyAll_insertions ?_ ?_ (List.pairwise_singleton _ _)
  · simp [Edit.IsInsertion, Edit.insertion]
  · simpa [Edit.insertion] using h

/-- What an instruction makes of a source: the line of its insertion and the new source. -/
def plan (source : String) (i : Instruction) :
    Except AnalysisError (Except Refusal (Nat × String)) := do
  match ← (Placement.locate source i).mapError .scan with
  | .error r => return .error r
  | .ok edit =>
    let after ← (Edit.applyAll source [edit]).mapError .edit
    return .ok ((Text.positionOf source.toList edit.start).line, after)

theorem apply_eq (ed : Editor) (i : Instruction) :
    ed.apply i =
      match ed.fileOf i.className with
      | .error r => .ok (ed, .skipped r)
      | .ok path => do
        let before ← ed.source path
        match ← plan before i with
        | .error r => return (ed, .skipped r)
        | .ok (line, after) => return (← ed.store path after, .applied path line before after) := by
  unfold apply plan
  cases ed.fileOf i.className with
  | error r => rfl
  | ok path =>
    dsimp only
    cases ed.source path with
    | error e => rfl
    | ok before =>
      simp only [bind, Except.bind]
      cases (Placement.locate before i).mapError AnalysisError.scan with
      | error e => rfl
      | ok found =>
        cases found with
        | error r => rfl
        | ok edit =>
          dsimp only
          cases (Edit.applyAll before [edit]).mapError AnalysisError.edit <;> rfl

section

variable {i : Instruction} {path : Path} {source : String}
  (hfile : ed.fileOf i.className = .ok path) (hsource : ed.source path = .ok source)

include hfile hsource

theorem apply_refused {r : Refusal} (h : placeIn (mask source.toList) i = .ok (.error r)) :
    ed.apply i = .ok (ed, .skipped r) := by
  unfold apply
  simp only [hfile, hsource, bind, Except.bind, locate_eq, h]
  rfl

theorem exists_apply (hed : ed.Sound) {n : Nat} (h : placeIn (mask source.toList) i = .ok (.ok n))
    (hslot : Slot source.toList n (insertedText i).toList) :
    ∃ ed' line, ed.apply i = .ok (ed', .applied path line source
        (String.ofList (insertAt n (insertedText i).toList source.toList))) ∧
      Stored ed source (String.ofList (insertAt n (insertedText i).toList source.toList)) ed' ∧
      ed'.source path = .ok (String.ofList (insertAt n (insertedText i).toList source.toList)) := by
  obtain ⟨ed', hstore, hstored, hnew⟩ := exists_store hed hsource
    (String.ofList (insertAt n (insertedText i).toList source.toList))
  have hedit := applyAll_insertion hslot.isBoundary (insertedText i)
  refine ⟨ed', (positionOf source.toList n).line, ?_, hstored, hnew⟩
  unfold apply
  simp only [hfile, hsource, locate_eq, h, Except.map, Except.mapError, bind, Except.bind,
    hedit, hstore]
  rfl

end

def ofSource (source : String) : Editor where
  index :=
    { classes := .ofList
        [(.of "" "A", ⟨⟨"A"⟩, [⟨"src/A.php"⟩]⟩), (.of "" "B", ⟨⟨"B"⟩, [⟨"src/A.php"⟩]⟩)] }
  dryRun := false
  files := FileTree.put {} ["src", "A.php"] (.file (.text source))

end SignatureInference.Editor
