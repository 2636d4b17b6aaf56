import SignatureInference.Analysis
import SignatureInference.Proofs.Text.Bytes
import SignatureInference.Proofs.Text.Trimming
import SignatureInference.Proofs.Trace.Correlation
import SignatureInference.Proofs.Trace.Evidence
import SignatureInference.Proofs.Trace.Records

/-! # Merging stored calls

The calls of a storage are visited one after another, and each visit puts what the call shows behind
what was observed before of its method. No call is visited before the last line of both files is
read, so a storage with a faulty line leaves the registry as it was. The error is the one of the
first faulty line, of the returns before the entries.
-/
namespace SignatureInference

open Text Trace

namespace Trace

/-! ## Visits -/

section

variable {σ ε α : Type}

theorem run_forM (visit : α → StateM σ Unit) (xs : List α) (state : σ) :
    ((xs.forM fun x => (visit x : ExceptT ε (StateM σ) Unit)).run).run state =
      (.ok (), xs.foldl (fun state x => ((visit x).run state).2) state) := by
  induction xs generalizing state with
  | nil => rfl
  | cons x xs ih => exact ih _

end

theorem run_forEach {σ : Type} (t : FileTree) (s : Storage) (visit : Call → StateM σ Unit)
    (state : σ) :
    ((s.forEach t visit).run).run state =
      match s.calls t with
      | .ok calls => (.ok (), calls.foldl (fun state c => ((visit c).run state).2) state)
      | .error e => (.error e, state) := by
  rw [Storage.forEach]
  cases s.calls t with
  | error e => rfl
  | ok calls => exact run_forM visit calls state

theorem foldl_visit (calls : List Call) (m : Merging) :
    calls.foldl (fun m c => ((Merging.visit c).run m).2) m =
      { registry := addTo calls m.registry, merged := m.merged + (observations calls).length } := by
  induction calls generalizing m with
  | nil => rfl
  | cons c calls ih =>
    have hvisit : ((Merging.visit c).run m).2 =
        { registry := addTo [c] m.registry, merged := m.merged + (observations [c]).length } := rfl
    rw [List.foldl_cons, hvisit, ih, addTo, addTo, addTo, observations_cons c calls,
      Registry.observeAll_append, List.length_append, Nat.add_assoc]

/-! ## Merging -/

/-- Merging visits all calls, or it fails before the first one. -/
theorem run_merge (t : FileTree) (s : Storage) (r : Registry) :
    ((s.merge t).run).run r =
      match s.calls t with
      | .ok calls => (.ok (calls.countP (·.method?.isSome)), addTo calls r)
      | .error e => (.error e, r) := by
  have hrun : ((s.merge t).run).run r =
      let run := ((s.forEach t Merging.visit).run).run { registry := r }
      (run.1.map fun _ => run.2.merged, run.2.registry) := rfl
  rw [hrun, run_forEach]
  cases s.calls t with
  | error e => rfl
  | ok calls =>
    simp only [foldl_visit, Nat.zero_add, length_observations]
    rfl

theorem run_merge_eq_error_iff {t : FileTree} {s : Storage} {r : Registry} {e : StorageError} :
    ((s.merge t).run).run r = (.error e, r) ↔ s.calls t = .error e := by
  rw [run_merge]
  cases s.calls t with
  | ok calls =>
    constructor
    · intro h
      cases h
    · intro h
      cases h
  | error e' =>
    constructor
    · intro h
      cases h
      rfl
    · intro h
      cases h
      rfl

/-! ## Lines of a file -/

def readLine (line : List UInt8) : Except FileError (List Char) :=
  match decode? line with
  | some text => .ok text
  | none => .error .notText

/-! ## Faulty lines -/

section

variable {α : Type} (ofJson? : Json → Option α)

/-- A line that is blank or holds a record. -/
def Sound (line : List UInt8) : Prop :=
  ∃ text, line = bytes text ∧
    ((∀ c ∈ text, isBlank c = true) ∨ ((Json.read? text).bind ofJson?).isSome = true)

def Fault (path : Path) (number : Nat) (line : List UInt8) (e : StorageError) : Prop :=
  (e = .file .notText ∧ ∀ text, line ≠ bytes text) ∨
    (e = .malformed path number ∧ ∃ text, line = bytes text ∧ (∃ c ∈ text, isBlank c = false) ∧
      (Json.read? text).bind ofJson? = none)

/-- The error of the first faulty line, where lines are counted from `number`. -/
def FirstFault (path : Path) (number : Nat) (lines : List (List UInt8)) (e : StorageError) : Prop :=
  ∃ front line rest, lines = front ++ line :: rest ∧ (∀ l ∈ front, Sound ofJson? l) ∧
    Fault ofJson? path (number + front.length) line e

def recordOn? (line : List UInt8) : Option α :=
  (decode? line).bind fun text =>
    if (trim text).isEmpty then none else (Json.read? text).bind ofJson?

variable {ofJson?} {path : Path} {number : Nat} {line : List UInt8} {lines : List (List UInt8)}
  {e : StorageError}

theorem Fault.not_sound (h : Fault ofJson? path number line e) : ¬Sound ofJson? line := by
  rintro ⟨text, rfl, hsound⟩
  rcases h with ⟨-, hnot⟩ | ⟨-, text', htext, ⟨c, hc, hblank⟩, hnone⟩
  · exact hnot text rfl
  · obtain rfl := bytes_injective htext
    rcases hsound with hsound | hsound
    · rw [hsound c hc] at hblank
      cases hblank
    · rw [hnone] at hsound
      cases hsound

theorem Fault.unique {e' : StorageError} (h : Fault ofJson? path number line e)
    (h' : Fault ofJson? path number line e') : e = e' := by
  rcases h with ⟨rfl, hnot⟩ | ⟨rfl, text, htext, -, -⟩
  · rcases h' with ⟨rfl, -⟩ | ⟨rfl, text, htext, -, -⟩
    · rfl
    · exact absurd htext (hnot text)
  · rcases h' with ⟨rfl, hnot⟩ | ⟨rfl, -⟩
    · exact absurd htext (hnot text)
    · rfl

/-- One line is read: a sound one gives its record, if it has one, any other one an error. -/
theorem readRecords_line (more : List (Except FileError (List Char))) :
    (Sound ofJson? line ∧ readRecords ofJson? path number (readLine line :: more) =
        (readRecords ofJson? path (number + 1) more).map ((recordOn? ofJson? line).toList ++ ·)) ∨
      ∃ e, Fault ofJson? path number line e ∧
      readRecords ofJson? path number (readLine line :: more) = .error e := by
  cases hline : decode? line with
  | none =>
    refine .inr ⟨.file .notText, .inl ⟨rfl, fun text htext => ?_⟩,
      by rw [readLine, hline, readRecords]⟩
    rw [decode?_eq_some_iff.mpr htext] at hline
    cases hline
  | some text =>
    have htext := decode?_eq_some_iff.mp hline
    have hread : readLine line = .ok text := by rw [readLine, hline]
    rw [hread, readRecords, recordOn?, hline, Option.bind_some]
    by_cases hblank : (trim text).isEmpty = true
    · refine .inl ⟨⟨text, htext, .inl (isEmpty_trim.mp hblank)⟩, ?_⟩
      rw [if_pos hblank, if_pos hblank]
      cases readRecords ofJson? path (number + 1) more <;> rfl
    · rw [if_neg hblank, if_neg hblank]
      cases hrecord : (Json.read? text).bind ofJson? with
      | none =>
        have hexists : ∃ c ∈ text, isBlank c = false := by
          simpa only [isEmpty_trim, not_forall, exists_prop, Bool.not_eq_true] using hblank
        exact .inr ⟨_, .inr ⟨rfl, text, htext, hexists, hrecord⟩, rfl⟩
      | some a =>
        refine .inl ⟨⟨text, htext, .inr (by rw [hrecord]; rfl)⟩, ?_⟩
        cases readRecords ofJson? path (number + 1) more <;> rfl

theorem readRecords_of_sound (h : ∀ line ∈ lines, Sound ofJson? line) (number : Nat) :
    readRecords ofJson? path number (lines.map readLine) =
      .ok (lines.filterMap (recordOn? ofJson?)) := by
  induction lines generalizing number with
  | nil => rfl
  | cons line lines ih =>
    rw [List.forall_mem_cons] at h
    rcases readRecords_line (lines.map readLine) with ⟨-, hread⟩ | ⟨e, hfault, -⟩
    · rw [List.map_cons, hread, ih h.2, List.filterMap_cons]
      cases recordOn? ofJson? line <;> rfl
    · exact absurd h.1 hfault.not_sound

theorem readRecords_of_firstFault (h : FirstFault ofJson? path number lines e) :
    readRecords ofJson? path number (lines.map readLine) = .error e := by
  obtain ⟨front, line, rest, rfl, hfront, hfault⟩ := h
  induction front generalizing number with
  | nil =>
    rcases readRecords_line (rest.map readLine) with ⟨hsound, -⟩ | ⟨e', hfault', hread⟩
    · exact absurd hsound hfault.not_sound
    · rw [hfault.unique hfault']
      exact hread
  | cons l front ih =>
    rw [List.forall_mem_cons] at hfront
    rcases readRecords_line ((front ++ line :: rest).map readLine)
      with ⟨-, hread⟩ | ⟨e', hfault', -⟩
    · rw [List.length_cons, Nat.add_comm front.length, ← Nat.add_assoc] at hfault
      rw [List.cons_append, List.map_cons, hread, ih hfront.2 hfault]
      rfl
    · exact absurd hfront.1 hfault'.not_sound

theorem sound_or_firstFault (ofJson? : Json → Option α) (path : Path) (number : Nat)
    (lines : List (List UInt8)) :
    (∀ line ∈ lines, Sound ofJson? line) ∨ ∃ e, FirstFault ofJson? path number lines e := by
  induction lines generalizing number with
  | nil => exact .inl (by simp)
  | cons line lines ih =>
    have hline : Sound ofJson? line ∨ ∃ e, Fault ofJson? path number line e :=
      (readRecords_line []).imp And.left fun ⟨e, hfault, _⟩ => ⟨e, hfault⟩
    rcases hline with hsound | ⟨e, hfault⟩
    · rcases ih (number + 1) with hsounds | ⟨e, front, l, rest, rfl, hfront, hfault⟩
      · exact .inl (List.forall_mem_cons.mpr ⟨hsound, hsounds⟩)
      · refine .inr ⟨e, line :: front, l, rest, rfl, List.forall_mem_cons.mpr ⟨hsound, hfront⟩, ?_⟩
        rw [List.length_cons, Nat.add_comm front.length, ← Nat.add_assoc]
        exact hfault
    · exact .inr ⟨e, [], line, lines, rfl, by simp, hfault⟩

end

/-! ## Calls in files -/

/-- The lines of the file at a path, without their line feeds. A missing file has none. -/
def HoldsLines (t : FileTree) (path : Path) (lines : List (List UInt8)) : Prop :=
  (t.read path = .error .missing ∧ lines = []) ∨
    ∃ contents ended, t.read path = .ok contents ∧ LinesOf contents.bytes ended ∧
      lines = ended.map dropFeed

theorem exists_holdsLines {t : FileTree} {path : Path}
    (h : ∀ e, t.read path = .error e → e = .missing) :
    ∃ lines, HoldsLines t path lines := by
  cases hread : t.read path with
  | error e =>
    rw [h e hread] at hread
    exact ⟨[], .inl ⟨hread, rfl⟩⟩
  | ok contents =>
    obtain ⟨ended, hended⟩ := exists_linesOf contents.bytes
    exact ⟨_, .inr ⟨contents, ended, hread, hended, rfl⟩⟩

theorem readRecordFile_of_holdsLines {α : Type} (ofJson? : Json → Option α) {t : FileTree}
    {path : Path} {lines : List (List UInt8)} (h : HoldsLines t path lines) :
    readRecordFile ofJson? t path = readRecords ofJson? path 1 (lines.map readLine) := by
  rcases h with ⟨hread, rfl⟩ | ⟨contents, ended, hread, hended, rfl⟩
  · rw [readRecordFile, hread]
    rfl
  · rw [readRecordFile, hread, ← hended.byteLines_eq]
    rfl

namespace FileStorage

/-- The error of the first faulty line, of the returns before the entries. -/
def Fails (s : FileStorage) (returns entries : List (List UInt8)) (e : StorageError) : Prop :=
  FirstFault Return.ofJson? s.returnsPath 1 returns e ∨
    (∀ line ∈ returns, Sound Return.ofJson? line) ∧
    FirstFault Entry.ofJson? s.entriesPath 1 entries e

variable {t : FileTree} {s : FileStorage} {returns entries : List (List UInt8)}

theorem correlated_calls (hreturns : HoldsLines t s.returnsPath returns)
    (hentries : HoldsLines t s.entriesPath entries)
    (hsound : ∀ line ∈ returns, Sound Return.ofJson? line)
    (hsound' : ∀ line ∈ entries, Sound Entry.ofJson? line) :
    ∃ calls, s.calls t = .ok calls ∧
      Correlated (entries.filterMap (recordOn? Entry.ofJson?) ++ s.pendingEntries.toList)
        (returns.filterMap (recordOn? Return.ofJson?) ++ s.pendingReturns.toList) calls := by
  refine ⟨_, ?_, (firsts_mergeSort _).correlated _⟩
  rw [calls, readRecordFile_of_holdsLines _ hreturns, readRecordFile_of_holdsLines _ hentries,
    readRecords_of_sound hsound, readRecords_of_sound hsound']
  rfl

theorem calls_eq_error_of_fails (hreturns : HoldsLines t s.returnsPath returns)
    (hentries : HoldsLines t s.entriesPath entries) {e : StorageError}
    (h : s.Fails returns entries e) :
    s.calls t = .error e := by
  rw [calls, readRecordFile_of_holdsLines _ hreturns, readRecordFile_of_holdsLines _ hentries]
  rcases h with hfault | ⟨hsound, hfault⟩
  · rw [readRecords_of_firstFault hfault]
    rfl
  · rw [readRecords_of_sound hsound, readRecords_of_firstFault hfault]
    rfl

theorem calls_eq_error_iff (hreturns : HoldsLines t s.returnsPath returns)
    (hentries : HoldsLines t s.entriesPath entries) {e : StorageError} :
    s.calls t = .error e ↔ s.Fails returns entries e := by
  refine ⟨fun h => ?_, calls_eq_error_of_fails hreturns hentries⟩
  have hfails : ∀ e', s.Fails returns entries e' → s.Fails returns entries e := by
    intro e' hfails
    rw [calls_eq_error_of_fails hreturns hentries hfails] at h
    cases h
    exact hfails
  rcases sound_or_firstFault Return.ofJson? s.returnsPath 1 returns with hsound | ⟨e', hfault⟩
  · rcases sound_or_firstFault Entry.ofJson? s.entriesPath 1 entries with hsound' | ⟨e', hfault⟩
    · obtain ⟨calls, hcalls, -⟩ := correlated_calls hreturns hentries hsound hsound'
      rw [hcalls] at h
      cases h
    · exact hfails e' (.inr ⟨hsound, hfault⟩)
  · exact hfails e' (.inl hfault)

end FileStorage

end Trace

/-! ## Traces -/

namespace Collecting

variable {α β : Type} {x : Collecting α} {r r' : Registry} {log log' : Array String}

theorem run_bind (x : Collecting α) (f : α → Collecting β) (r : Registry) (log : Array String) :
    (((x >>= f).run).run r).run log =
      let result := ((x.run).run r).run log
      (ExceptT.bindCont f result.1.1 result.1.2).run result.2 := rfl

theorem run_bind_ok {a : α} (h : ((x.run).run r).run log = ((.ok a, r'), log'))
    (f : α → Collecting β) :
    (((x >>= f).run).run r).run log = (((f a).run).run r').run log' := by
  rw [run_bind, h]
  rfl

theorem run_bind_error {e : AnalysisError} (h : ((x.run).run r).run log = ((.error e, r'), log'))
    (f : α → Collecting β) : (((x >>= f).run).run r).run log = ((.error e, r'), log') := by
  rw [run_bind, h]
  rfl

theorem run_ofLogged {x : Logged α} {result : Except AnalysisError α}
    (h : (x.run).run log = (result, log')) (r : Registry) :
    (((ofLogged x).run).run r).run log = ((result, r), log') := by
  have hlift : (((ofLogged x).run).run r).run log =
      ((((x.run).run log).1, r), ((x.run).run log).2) := rfl
  rw [hlift, h]

theorem run_ofMerging {x : ExceptT StorageError (StateM Registry) α}
    {result : Except StorageError α} (h : (x.run).run r = (result, r')) (log : Array String) :
    (((ofMerging x).run).run r).run log = ((result.mapError .ofStorage, r'), log) := by
  have hlift : (((ofMerging x).run).run r).run log =
      ((((x.run).run r).1.mapError .ofStorage, ((x.run).run r).2), log) := rfl
  rw [hlift, h]

end Collecting

namespace Analysis

theorem addTrace_eq (files place : FileTree) (index : Index) (settings : Settings) (path : Path) :
    addTrace files place index settings path =
      .ofLogged (readTrace files place index settings path) >>= fun (place, storage) =>
        .ofMerging (storage.merge place) >>= fun merged =>
          Log.tell [s!"Merged {merged} traced calls"] := rfl

/-- A trace whose reading fails adds nothing; otherwise the calls of the storage are added, or none
of them. -/
theorem run_addTrace (files place : FileTree) (index : Index) (settings : Settings) (path : Path)
    (r : Registry) (log : Array String) :
    (∃ e log', ((readTrace files place index settings path).run).run log = (.error e, log') ∧
      (((addTrace files place index settings path).run).run r).run log = ((.error e, r), log')) ∨
    ∃ place' storage log', ((readTrace files place index settings path).run).run log =
      (.ok (place', storage), log') ∧
      ((∃ e, storage.calls place' = .error e ∧
          (((addTrace files place index settings path).run).run r).run log =
            ((.error (.ofStorage e), r), log')) ∨
        ∃ calls, storage.calls place' = .ok calls ∧
          (((addTrace files place index settings path).run).run r).run log =
            ((.ok (), addTo calls r),
              log' ++ [s!"Merged {calls.countP (·.method?.isSome)} traced calls"])) := by
  rw [addTrace_eq]
  obtain ⟨result, log', hread⟩ :
      ∃ result log', ((readTrace files place index settings path).run).run log = (result, log') :=
    ⟨_, _, rfl⟩
  have hrun := Collecting.run_ofLogged hread r
  cases result with
  | error e => exact .inl ⟨e, log', hread, Collecting.run_bind_error hrun _⟩
  | ok x =>
    obtain ⟨place', storage⟩ := x
    refine .inr ⟨place', storage, log', hread, ?_⟩
    rw [Collecting.run_bind_ok hrun]
    have hmerge := run_merge place' storage r
    cases hcalls : storage.calls place' with
    | error e =>
      rw [hcalls] at hmerge
      exact .inl ⟨e, rfl, Collecting.run_bind_error (Collecting.run_ofMerging hmerge log') _⟩
    | ok calls =>
      rw [hcalls] at hmerge
      refine .inr ⟨calls, rfl, ?_⟩
      rw [Collecting.run_bind_ok (Collecting.run_ofMerging hmerge log')]
      rfl

theorem run_addTrace_of_missing {files place place' : FileTree} {settings : Settings}
    {storage : Storage} {path : Path}
    (hcreate : Storage.create place settings.storage = .ok (place', storage))
    (hfile : files.isFile path = false) (index : Index) (r : Registry) (log : Array String) :
    ∃ log', (((addTrace files place index settings path).run).run r).run log =
      ((.error (.missingTrace path), r), log') := by
  have hread : ∃ log', ((readTrace files place index settings path).run).run log =
      (.error (.missingTrace path), log') := by
    rw [readTrace, hcreate, hfile]
    exact ⟨_, rfl⟩
  obtain ⟨log', hread⟩ := hread
  rw [addTrace_eq]
  exact ⟨log', Collecting.run_bind_error (Collecting.run_ofLogged hread r) _⟩

end Analysis

namespace Trace

/-- A returns file that ends within its second line, and an entries file that is no text. -/
def brokenTree : FileTree :=
  (FileTree.put {} ["d", "returns.jsonl"] (.file (.text "\n\x7b"))).put ["d", "entries.jsonl"]
    (.file (.binary [255, 10]))

def returnLine : List UInt8 := bytes (Return.json ⟨7, "long"⟩).compact

def soundTree : FileTree :=
  FileTree.put {} ["d", "returns.jsonl"] (.file (.ofBytes (returnLine ++ [10, 9, 10])))

/-- Two calls of methods and, between them, one of a function without a class. -/
def pending : Array Entry :=
  #[⟨9, "App\\Baz::make", true, "/p/src/Baz.php", []⟩, ⟨8, "helper", true, "/p/src/f.php", []⟩,
    ⟨7, "App\\Foo->bar", true, "/p/src/Foo.php", ["TRUE"]⟩]

def knownBar : Method where
  className := .ofText "App\\Foo"
  name := "bar"
  parameters := [{ name := "x" }]
  calls := [[.array]]

end Trace

end SignatureInference
