import SignatureInference.Proofs.Directories
import SignatureInference.Proofs.Editing.Order
import SignatureInference.Proofs.Index

/-! # The account of a revision

What a revision takes down agrees with what happened to the files. The account sees single edits
only, each with the source before and after it, and goes by the components of paths. It is right
because an editor changes a class only if one path declares it: two such paths that lead to one file
declare the same classes, so they agree.
-/
namespace SignatureInference

/-! ### What is taken down -/

namespace Changes

def appliedPath? : Result → Option Path
  | (_, .applied path ..) => some path
  | (_, .skipped _) => none

def appliedAt? (key : List Component) : Result → Option Instruction
  | (i, .applied path ..) => if path.components = key then some i else none
  | (_, .skipped _) => none

theorem ofResults_concat (results : List Result) (result : Result) :
    ofResults (results ++ [result]) = (ofResults results).record result := by
  rw [ofResults, List.foldl_append]
  rfl

theorem instructions_ofResults (results : List Result) (key : List Component) :
    ((ofResults results).get? key).map (·.instructions) =
      if results.filterMap (appliedAt? key) = [] then none
      else some (results.filterMap (appliedAt? key)) := by
  induction results using List.reverseRecOn with
  | nil => rfl
  | append_singleton results result ih =>
    rw [ofResults_concat, List.filterMap_append]
    obtain ⟨i, outcome⟩ := result
    cases outcome with
    | skipped reason =>
      rw [record, ih, List.filterMap_cons_none rfl, List.filterMap_nil, List.append_nil]
    | applied path line before after =>
      obtain ⟨⟨known, hknown, -, -, hinstructions⟩, hothers⟩ :=
        Editor.takenDown_record i path line before after (ofResults results)
      by_cases hkey : path.components = key
      · have happlied : appliedAt? key (i, .applied path line before after) = some i := if_pos hkey
        have hearlier : (if results.filterMap (appliedAt? key) = [] then none
            else some (results.filterMap (appliedAt? key))).getD [] =
              results.filterMap (appliedAt? key) := by
          split
          · next hnone => rw [hnone, Option.getD_none]
          · rfl
        have hne : results.filterMap (appliedAt? key) ++ [i] ≠ [] := by simp
        rw [List.filterMap_cons_some happlied, List.filterMap_nil, if_neg hne, ← hkey, hknown,
          Option.map_some, hinstructions, hkey, ih, hearlier]
      · have happlied : appliedAt? key (i, .applied path line before after) = none := if_neg hkey
        rw [hothers key fun h => hkey h.symm, ih, List.filterMap_cons_none happlied,
          List.filterMap_nil, List.append_nil]

theorem mem_keys_ofResults (results : List Result) (key : List Component) :
    key ∈ (ofResults results).keys ↔
      key ∈ (results.filterMap appliedPath?).map Path.components := by
  have hget := instructions_ofResults results key
  have hsome : (ofResults results).contains key = true ↔
      results.filterMap (appliedAt? key) ≠ [] := by
    rw [SortedMap.contains, ← Option.isSome_map, hget]
    split <;> simp_all
  rw [SortedMap.mem_keys_iff, hsome, List.mem_map]
  constructor
  · intro hne
    obtain ⟨i, hi⟩ := List.exists_mem_of_ne_nil _ hne
    obtain ⟨⟨j, outcome⟩, hresult, hj⟩ := List.mem_filterMap.mp hi
    cases outcome with
    | skipped reason => cases hj
    | applied path line before after =>
      refine ⟨path, List.mem_filterMap.mpr ⟨_, hresult, rfl⟩, ?_⟩
      by_contra hkey
      rw [appliedAt?, if_neg hkey] at hj
      cases hj
  · rintro ⟨path, hpath, rfl⟩
    obtain ⟨⟨i, outcome⟩, hresult, hi⟩ := List.mem_filterMap.mp hpath
    cases outcome with
    | skipped reason => cases hi
    | applied path' line before after =>
      cases hi
      exact List.ne_nil_of_mem (List.mem_filterMap.mpr ⟨_, hresult, if_pos rfl⟩)

theorem size_ofResults (results : List Result) :
    (ofResults results).size =
      ((results.filterMap appliedPath?).map Path.components).toFinset.card := by
  have hkeys : (ofResults results).keys.toFinset =
      ((results.filterMap appliedPath?).map Path.components).toFinset := by
    ext key
    rw [List.mem_toFinset, List.mem_toFinset, mem_keys_ofResults]
  rw [← hkeys, List.toFinset_card_of_nodup (SortedMap.nodup_keys _), SortedMap.keys,
    List.length_map]
  rfl

end Changes

/-! ### The files of an index -/

/-- A path that alone declares some class. -/
def Index.Sole (index : Index) (p : Path) : Prop := ∃ space name, index.classFiles space name = [p]

def FileTree.sourcesAt (t : FileTree) (paths : List Path) : List (Path × String) :=
  paths.filterMap fun p => (t.readText p).toOption.map (p, ·)

theorem FileTree.readText_of_mem_sourcesAt {t : FileTree} {paths : List Path} {s : Path × String}
    (hs : s ∈ t.sourcesAt paths) : t.readText s.1 = .ok s.2 := by
  obtain ⟨p, -, hp⟩ := List.mem_filterMap.mp hs
  cases hread : t.readText p with
  | error e =>
    rw [hread] at hp
    cases hp
  | ok text =>
    rw [hread] at hp
    cases hp
    exact hread

/-- Paths that lead to texts, and to the same one only if their components agree. -/
structure FileTree.Separates (t : FileTree) (known : Path → Prop) : Prop where
  readable : ∀ {p}, known p → ∃ s, t.readText p = .ok s ∧ s ≠ ""
  distinct : ∀ {p q place}, known p → known q → t.resolve p = .ok place → t.resolve q = .ok place →
    q.components = p.components

namespace Index

open Source

variable {index : Index} {t : FileTree}

theorem build_eq (t : FileTree) (roots : List Path) (filter : PathFilter) :
    build t roots filter = ofSources (t.sourcesAt (filter.collect t roots)) := by
  unfold build ofSources
  generalize filter.collect t roots = paths
  generalize ({} : Index) = index
  induction paths generalizing index with
  | nil => rfl
  | cons p paths ih =>
    rw [List.foldlM_cons, FileTree.sourcesAt]
    cases hread : t.readText p with
    | error e =>
      rw [List.filterMap_cons_none (by rw [hread]; rfl)]
      exact ih index
    | ok s =>
      rw [List.filterMap_cons_some (b := (p, s)) (by rw [hread]; rfl), List.foldlM_cons]
      exact bind_congr ih

/-- A path that alone declares some class leads to a text, and so does no other path. -/
theorem TellsOf.exists_of_sole {sources : List (Path × String)}
    (h : TellsOf sources index) {p : Path} (hp : index.Sole p) :
    ∃ s key, (p, s) ∈ sources ∧ declaresClass s key = true ∧
      ∀ q, (q, s) ∈ sources → q.components = p.components := by
  obtain ⟨space, name, hfiles⟩ := hp
  rw [h.classFiles_eq] at hfiles
  obtain ⟨⟨⟨p', s⟩, hs, rfl, hdeclares⟩, hall⟩ := declares_of_declaringPaths hfiles
  exact ⟨s, _, hs, hdeclares, fun q hq => Path.same_iff.mp (hall (q, s) hq hdeclares)⟩

theorem separates_sole {roots : List Path} {filter : PathFilter}
    (h : build t roots filter = .ok index) :
    t.Separates index.Sole := by
  rw [build_eq] at h
  have htells := tellsOf_ofSources h
  constructor
  · intro p hp
    obtain ⟨s, key, hs, hdeclares, -⟩ := htells.exists_of_sole hp
    refine ⟨s, FileTree.readText_of_mem_sourcesAt hs, ?_⟩
    rintro rfl
    cases hdeclares
  · intro p q place hp hq hplace hplace'
    obtain ⟨s, -, hs, -, hall⟩ := htells.exists_of_sole hp
    obtain ⟨s', -, hs', -, -⟩ := htells.exists_of_sole hq
    have hread := FileTree.readText_of_mem_sourcesAt hs
    have hread' := FileTree.readText_of_mem_sourcesAt hs'
    -- both paths lead to one text, and it belongs to the first path alone
    rw [FileTree.readText_eq, hplace] at hread
    rw [FileTree.readText_eq, hplace'] at hread'
    have hsame : s' = s := Except.ok.inj (hread'.symm.trans hread)
    exact hall q (hsame ▸ hs')

end Index

/-! ### One instruction -/

namespace Editor

open Text Placement

variable {t : FileTree} {ed ed' : Editor} {i : Instruction}

theorem length_insertedText_pos (i : Instruction) : 0 < (insertedText i).length := by
  unfold insertedText
  split
  · rw [String.length_append]
    exact Nat.add_pos_left (by decide) _
  · rw [String.length_append]
    exact Nat.add_pos_right _ (by decide)

theorem Inserted.length_lt {path : Path} {line : Nat} {before after : String}
    (h : Inserted ed i path line before after ed') : before.length < after.length := by
  obtain ⟨p, hbelongs, hafter, -⟩ := h.exists_place
  obtain ⟨l, r, hsplit, rfl⟩ := exists_append_of_isBoundary hbelongs.isBoundary
  have hpos := length_insertedText_pos i
  rw [hsplit, takeBytes_byteLength, dropBytes_byteLength] at hafter
  rw [← String.length_toList, ← String.length_toList, hafter, hsplit]
  simp only [List.length_append, String.length_toList]
  omega

/-- An editor that began with the given files. In a dry run they are as they were; otherwise no file
has come or gone since. -/
structure Began (t : FileTree) (ed : Editor) : Prop where
  dry : ed.dryRun = true → ed.files = t
  writing : ed.dryRun = false →
    ed.overlay = ∅ ∧ ed.files.base = t.base ∧ ed.files.isDirectory? = t.isDirectory?

theorem Began.store_dry (h : Began t ed) (hdry : ed.dryRun = true) {p : Path} {new : String}
    (hstore : ed.store p new = .ok ed') :
    Began t ed' ∧
      ∀ q, ed'.source q = if q.components = p.components then .ok new else ed.source q := by
  rw [store, if_pos hdry] at hstore
  cases hstore
  refine ⟨⟨h.dry, fun hfix => ?_⟩, fun q => ?_⟩
  · rw [hdry] at hfix
    cases hfix
  · unfold source
    rw [source?_set]
    by_cases hqp : q.components = p.components
    · rw [if_pos hqp, if_pos hqp]
    · rw [if_neg hqp, if_neg hqp]

section

variable {known : Path → Prop} (hsep : t.Separates known) (h : Began t ed) {p : Path} (hp : known p)
  {old new : String} (hold : ed.source p = .ok old) (hstore : ed.store p new = .ok ed')

include hsep h hp hold hstore

theorem Began.store_files (hfix : ed.dryRun = false) :
    Began t ed' ∧ ∀ q, known q →
      ed'.source q = if q.components = p.components then .ok new else ed.source q := by
  obtain ⟨hempty, hbase, hshape⟩ := h.writing hfix
  have hnone (q : Path) : ed.overlay.source? q = none := by rw [hempty]; rfl
  have herase : ed.overlay.erase p.components = ∅ := by rw [hempty]; rfl
  obtain ⟨place, hplace, hfile⟩ :=
    FileTree.exists_of_readText ((source_of_files ed (hnone p)).mp hold)
  rw [store, hfix] at hstore
  cases hwrite : ed.files.write p (.text new) with
  | error e =>
    rw [hwrite] at hstore
    cases hstore
  | ok files =>
    rw [hwrite] at hstore
    cases hstore
    -- the path leads to a file, so writing replaces it in its place
    have hfiles := FileTree.write_of_shape rfl rfl hplace hwrite (d := .text new)
    rw [hwrite] at hfiles
    cases hfiles
    refine ⟨⟨fun hdry => absurd hdry Bool.false_ne_true, fun _ => ⟨herase, hbase, ?_⟩⟩,
      fun q hq => ?_⟩
    · exact (FileTree.isDirectory?_overwrite hfile).trans hshape
    · have hresolves (q : Path) : ed.files.resolve q = t.resolve q :=
        FileTree.resolve_congr hbase hshape q
      have hsource : ed.source q = (ed.files.readText q).mapError .file := by rw [source, hnone]
      have hother : Overlay.source? (ed.overlay.erase p.components) q = none := by rw [herase]; rfl
      rw [source, hother, FileTree.readText_overwrite hfile, hsource]
      by_cases hqp : q.components = p.components
      · obtain ⟨s, hs, -⟩ := hsep.readable hq
        obtain ⟨place', hplace', -⟩ := FileTree.exists_of_readText hs
        rw [← hresolves] at hplace'
        have hsame : place' = place := FileTree.resolve_unique hqp hplace hplace'
        rw [if_pos hqp, if_pos (hsame ▸ hplace')]
        rfl
      · have hdifferent : ¬ed.files.resolve q = .ok place := by
          intro hq'
          rw [hresolves] at hq' hplace
          exact hqp (hsep.distinct hp hq hplace hq')
        rw [if_neg hqp, if_neg hdifferent]

/-- Storing a source changes it for the paths with the same components, and for no other one that is
known. -/
theorem Began.store :
    Began t ed' ∧ ∀ q, known q →
      ed'.source q = if q.components = p.components then .ok new else ed.source q := by
  cases hmode : ed.dryRun with
  | true =>
    obtain ⟨hbegan, hsource⟩ := h.store_dry hmode hstore
    exact ⟨hbegan, fun q _ => hsource q⟩
  | false => exact h.store_files hsep hp hold hstore hmode

end

/-- The account and the editor agree on every path that alone declares some class: nothing is taken
down and its source is as it was, or what is taken down is its source before and after, and the
latter is longer. -/
def Balanced (t : FileTree) (ed : Editor) (c : Changes) : Prop :=
  ∀ q, ed.index.Sole q →
    (c.get? q.components = none ∧ ed.source q = (t.readText q).mapError .file) ∨
      ∃ change, c.get? q.components = some change ∧ t.readText q = .ok change.before ∧
        ed.source q = .ok change.after ∧ change.before.length < change.after.length

theorem sole_of_fileOf {c : ClassName} {p : Path} (h : ed.fileOf c = .ok p) : ed.index.Sole p :=
  ⟨_, _, classFiles_of_fileOf h⟩

/-- One edit is taken down as it was made. -/
theorem Balanced.applied (hsep : t.Separates ed.index.Sole) {c : Changes} (h : Balanced t ed c)
    (hbegan : Began t ed) {path : Path} {line : Nat} {before after : String}
    (happly : ed.apply i = .ok (ed', .applied path line before after)) :
    Began t ed' ∧ ed'.index = ed.index ∧
      Balanced t ed' (c.record (i, .applied path line before after)) := by
  obtain ⟨hinserted, hstore⟩ := inserted_of_apply happly
  have hbefore := hinserted.source_eq
  have hindex : ed'.index = ed.index := hinserted.replaced.index_eq
  obtain ⟨hbegan', hsource⟩ := hbegan.store hsep (sole_of_fileOf hinserted.file_eq) hbefore hstore
  obtain ⟨⟨known, hknown, hafter, hfirst, -⟩, hothers⟩ :=
    takenDown_record i path line before after c
  refine ⟨hbegan', hindex, fun q hq => ?_⟩
  rw [hindex] at hq
  rw [hsource q hq]
  by_cases hqp : q.components = path.components
  · right
    -- the first edit of a file finds it as it was, a later one as the one before left it
    have hstart : t.readText q = .ok known.before ∧ known.before.length ≤ before.length := by
      rcases h q hq with ⟨hnone, hsame⟩ | ⟨change, hchange, hread, hnow, hgrown⟩
      · obtain ⟨s, hs, -⟩ := hsep.readable hq
        rw [hs] at hsame
        have hbefore' : s = before := source_eq_of_components hqp hbefore hsame
        rw [← hqp, hnone, Option.map_none, Option.getD_none] at hfirst
        rw [hfirst, hs, hbefore']
        exact ⟨rfl, le_rfl⟩
      · have hbefore' : change.after = before := source_eq_of_components hqp hbefore hnow
        rw [← hqp, hchange, Option.map_some, Option.getD_some] at hfirst
        rw [hfirst, ← hbefore']
        exact ⟨hread, hgrown.le⟩
    rw [if_pos hqp, hqp]
    refine ⟨known, hknown, hstart.1, by rw [hafter], ?_⟩
    rw [hafter]
    exact hstart.2.trans_lt hinserted.length_lt
  · rw [if_neg hqp, hothers _ hqp]
    exact h q hq

theorem Balanced.apply (hsep : t.Separates ed.index.Sole) {c : Changes} (h : Balanced t ed c)
    (hbegan : Began t ed) {outcome : EditOutcome} (happly : ed.apply i = .ok (ed', outcome)) :
    Began t ed' ∧ ed'.index = ed.index ∧ Balanced t ed' (c.record (i, outcome)) := by
  rcases apply_cases ed i with
    ⟨e, happly', -⟩ | ⟨r, happly'⟩ | ⟨ed'', path, line, before, after, happly', -⟩
  · rw [happly] at happly'
    cases happly'
  · rw [happly] at happly'
    cases happly'
    exact ⟨hbegan, rfl, h⟩
  · rw [happly] at happly'
    cases happly'
    exact h.applied hsep hbegan happly

end Editor

/-! ### A whole revision -/

namespace Revision

open Editor

/-- The paths of the files that were changed, once for each instruction that was carried out. -/
def appliedPaths (r : Revision) : List Path := r.results.filterMap Changes.appliedPath?

def instructionsAt (r : Revision) (path : Path) : List Instruction :=
  r.results.filterMap (Changes.appliedAt? path.components)

/-- The account of a revision agrees with its instructions and with the files before and after
it. -/
structure Balances (r : Revision) (t : FileTree) (is : List Instruction) : Prop where
  instructions_eq : r.results.map (·.1) = is
  counts_eq : r.applied + r.skipped = is.length
  files_eq : r.changes.size = (r.appliedPaths.map Path.components).toFinset.card
  changed : ∀ path ∈ r.appliedPaths, ∃ change, r.changes.get? path.components = some change ∧
    t.readText path = .ok change.before ∧ r.editor.source path = .ok change.after ∧
    change.before ≠ change.after ∧ change.instructions = r.instructionsAt path

theorem instructions_run {ed : Editor} {is : List Instruction} (h : (run ed is).failure = none) :
    (run ed is).results.map (·.1) = is := by
  induction is generalizing ed with
  | nil => rfl
  | cons i rest ih =>
    rw [run] at h ⊢
    cases happly : ed.apply i with
    | error e =>
      rw [happly] at h
      cases h
    | ok next =>
      rw [happly] at h
      exact congrArg (i :: ·) (ih h)

theorem length_appliedPaths (r : Revision) : r.appliedPaths.length = r.applied := by
  rw [appliedPaths, List.length_filterMap_eq_countP]
  refine List.countP_congr ?_
  rintro ⟨i, outcome⟩ -
  cases outcome <;> simp [Changes.appliedPath?]

theorem applied_add_skipped (r : Revision) : r.applied + r.skipped = r.results.length := by
  have hskipped : r.skipped =
      r.results.countP fun result => decide ¬(Changes.appliedPath? result).isSome = true := by
    refine List.countP_congr ?_
    rintro ⟨i, outcome⟩ -
    cases outcome <;> simp [Changes.appliedPath?]
  rw [← length_appliedPaths, appliedPaths, List.length_filterMap_eq_countP, hskipped,
    ← List.length_eq_countP_add_countP]

/-- What balances at first balances after any instructions, and each of them changes the only file
of its class. -/
theorem balanced_run {t : FileTree} {ed : Editor} (hsep : t.Separates ed.index.Sole)
    (hbegan : Began t ed) {c : Changes} (h : Balanced t ed c) (is : List Instruction) :
    Balanced t (run ed is).editor ((run ed is).results.foldl Changes.record c) ∧
      (run ed is).editor.index = ed.index ∧
      ∀ path ∈ (run ed is).appliedPaths, ed.index.Sole path := by
  induction is generalizing ed c with
  | nil => exact ⟨h, rfl, fun path hpath => absurd hpath List.not_mem_nil⟩
  | cons i rest ih =>
    cases happly : ed.apply i with
    | error e =>
      rw [run, happly]
      exact ⟨h, rfl, fun path hpath => absurd hpath List.not_mem_nil⟩
    | ok state =>
      obtain ⟨ed', outcome⟩ := state
      obtain ⟨hbegan', hindex, h'⟩ := h.apply hsep hbegan happly
      obtain ⟨hrest, hindex', hsole⟩ := ih (hindex ▸ hsep) hbegan' h'
      rw [run_cons_of_apply happly]
      refine ⟨hrest, hindex'.trans hindex, fun path hpath => ?_⟩
      rcases List.mem_filterMap.mp hpath with ⟨result, hresult, happlied⟩
      rcases List.mem_cons.mp hresult with rfl | hresult
      · cases outcome with
        | skipped reason => cases happlied
        | applied path' line before after =>
          cases happlied
          exact sole_of_fileOf (inserted_of_apply happly).1.file_eq
      · rw [← hindex]
        exact hsole path (List.mem_filterMap.mpr ⟨result, hresult, happlied⟩)

/-- A revision that begins with an index of the files `u` balances, also with respect to earlier
files `t` that had all the texts which are not empty. -/
theorem balances_of_build {t u : FileTree} {roots : List Path} {filter : PathFilter} {index : Index}
    (hbuild : Index.build u roots filter = .ok index)
    (hearlier : ∀ p s, u.readText p = .ok s → s ≠ "" → t.readText p = .ok s) (dryRun : Bool)
    (is : List Instruction) (hdone : (run { index, dryRun, files := u } is).failure = none) :
    (run { index, dryRun, files := u } is).Balances t is := by
  have hsep : u.Separates index.Sole := Index.separates_sole hbuild
  have hbegan : Began u { index, dryRun, files := u } := ⟨fun _ => rfl, fun _ => ⟨rfl, rfl, rfl⟩⟩
  have hstart : Balanced u { index, dryRun, files := u } ∅ := fun q _ => .inl ⟨rfl, rfl⟩
  obtain ⟨hbalanced, hindex, hsole⟩ := balanced_run hsep hbegan hstart is
  have htried := instructions_run hdone
  refine ⟨htried, ?_, Changes.size_ofResults _, fun path hpath => ?_⟩
  · rw [applied_add_skipped, ← List.length_map (f := (·.1)), htried]
  · have hinstructions := Changes.instructions_ofResults
      (run { index, dryRun, files := u } is).results path.components
    rcases hbalanced path (hindex ▸ hsole path hpath) with
      ⟨hnone, -⟩ | ⟨change, hchange, hread, hafter, hgrown⟩
    · have hkey := (Changes.mem_keys_ofResults
        (run { index, dryRun, files := u } is).results path.components).mpr
        (List.mem_map_of_mem hpath)
      rw [SortedMap.mem_keys_iff, SortedMap.contains, Changes.ofResults, hnone] at hkey
      cases hkey
    · obtain ⟨s, hs, hne⟩ := hsep.readable (hsole path hpath)
      refine ⟨change, hchange, ?_, hafter, ?_, ?_⟩
      · rw [hread] at hs
        cases hs
        exact hearlier path _ hread hne
      · intro hsame
        rw [hsame] at hgrown
        exact lt_irrefl _ hgrown
      · rw [Changes.ofResults, hchange, Option.map_some] at hinstructions
        split at hinstructions
        · cases hinstructions
        · exact Option.some.inj hinstructions

end Revision
end SignatureInference
