import SignatureInference.Proofs.Directories
import SignatureInference.Proofs.Trace.Correlation
import SignatureInference.Proofs.Trace.Records

/-! # Both storages hold the same calls

Whatever is done with a storage, it holds the records that were added since it was cleared last. The
calls that it hands out depend on these records alone, so it makes no difference where they are
kept, and when the collected ones were written.
-/
namespace SignatureInference.Trace

def entriesOf (records : List Record) : List Entry :=
  records.filterMap fun
    | .entry e => some e
    | .result _ => none

def returnsOf (records : List Record) : List Return :=
  records.filterMap fun
    | .entry _ => none
    | .result r => some r

/-! ## Records in files -/

namespace FileStorage

/-- The file at a place has the records that were written, or is missing if there are none. -/
def Written {α : Type} (json : α → Json) (t : FileTree) (place : List String)
    (records : List α) : Prop :=
  t.node? place = none ∧ records = [] ∨
    t.node? place = some (.file (.text (String.join ((records.map json).map lineOf))))

/-- The records that the files and the storage have together, those in the files first. -/
structure Holds (t : FileTree) (s : FileStorage) (entries : List Entry)
    (returns : List Return) : Prop where
  exists_place : ∃ place, t.Leads s.directory place ∧
    (∃ written, Written Entry.json t (place ++ ["entries.jsonl"]) written ∧
      entries = written ++ s.pendingEntries.toList) ∧
    ∃ written, Written Return.json t (place ++ ["returns.jsonl"]) written ∧
      returns = written ++ s.pendingReturns.toList

section

variable {α : Type} {json : α → Json} {ofJson? : Json → Option α} {t : FileTree} {path : Path}
  {place : List String} (hnew : t.resolveNew path = .ok place)
  {written : List α} (hwritten : Written json t place written)

include hnew hwritten

theorem readRecordFile_written (hfaithful : Faithful json ofJson?) :
    readRecordFile ofJson? t path = .ok written := by
  unfold readRecordFile
  rw [FileTree.read_of_resolveNew hnew]
  rcases hwritten with ⟨hnode, rfl⟩ | hnode
  · rw [hnode]
  · rw [hnode]
    exact readRecords_contentLines hfaithful _ written

/-- Records are written behind those that are there, and no other file changes. -/
theorem exists_appendRecords (records : List α) :
    ∃ u, appendRecords t path (records.map json) = .ok u ∧ FileTree.Keeps t u ∧
      Written json u place (written ++ records) ∧ ∀ q, q ≠ place → u.node? q = t.node? q := by
  cases records with
  | nil => exact ⟨t, rfl, .refl t, by rwa [List.append_nil], fun q _ => rfl⟩
  | cons a records =>
    obtain ⟨old, hold, htext⟩ : ∃ old : String,
        (t.node? place = none ∧ old = "" ∨ t.node? place = some (.file (.text old))) ∧
          old = String.join ((written.map json).map lineOf) := by
      rcases hwritten with ⟨hnode, rfl⟩ | hnode
      · exact ⟨"", .inl ⟨hnode, rfl⟩, rfl⟩
      · exact ⟨_, .inr hnode, rfl⟩
    have hroot : place ≠ [] := FileTree.ne_root_of_resolveNew hnew
    have hfile : t.node? place ≠ some .directory := by
      rcases hold with ⟨hnode, -⟩ | hnode <;> simp [hnode]
    have happend : appendRecords t path ((a :: records).map json) = .ok { t with
        nodes := t.nodes.insert place
          (.file (.text (old ++ String.join (((a :: records).map json).map lineOf)))) } := by
      rw [appendRecords, if_neg (by simp), FileTree.append_of_resolveNew hnew hold]
      rfl
    refine ⟨_, happend, FileTree.keeps_insert hroot hfile _, .inr ?_, fun q hq => ?_⟩
    · rw [FileTree.node?_insert hroot, if_pos rfl, htext, List.map_append, List.map_append,
        String.join_append]
    · rw [FileTree.node?_insert hroot, if_neg hq]

end

section

variable {t u : FileTree} {p : Path} {place : List String} {name : String}
  (hleads : t.Leads p place) (hname : Path.isName name = true)

include hleads hname

theorem removeIfThere_ok (h : removeIfThere t (p.join name) = .ok u) :
    u.Leads p place ∧ u.node? (place ++ [name]) = none ∧ ∀ q, q ≠ place ++ [name] →
      u.node? q = t.node? q := by
  have hroot : place ++ [name] ≠ [] := by simp
  unfold removeIfThere at h
  rw [hleads.remove hname] at h
  cases hnode : t.node? (place ++ [name]) with
  | none =>
    rw [hnode] at h
    cases h
    exact ⟨hleads, hnode, fun q _ => rfl⟩
  | some node =>
    rw [hnode] at h
    cases node with
    | directory => cases h
    | file c =>
      cases h
      refine ⟨hleads.keeps (FileTree.keeps_erase hroot (by simp [hnode])), ?_, fun q hq => ?_⟩
      · rw [FileTree.node?_erase hroot, if_pos rfl]
      · rw [FileTree.node?_erase hroot, if_neg hq]

theorem exists_removeIfThere (h : t.node? (place ++ [name]) ≠ some .directory) :
    ∃ u, removeIfThere t (p.join name) = .ok u := by
  unfold removeIfThere
  rw [hleads.remove hname]
  cases hnode : t.node? (place ++ [name]) with
  | none => exact ⟨t, rfl⟩
  | some node =>
    cases node with
    | directory => exact absurd hnode h
    | file c => exact ⟨_, rfl⟩

end

variable {t u : FileTree} {s s' : FileStorage} {entries : List Entry} {returns : List Return}

theorem isName_entries : Path.isName "entries.jsonl" = true := by decide

theorem isName_returns : Path.isName "returns.jsonl" = true := by decide

theorem returns_ne_entries (place : List String) :
    place ++ ["returns.jsonl"] ≠ place ++ ["entries.jsonl"] := by
  simp

theorem clear_ok {place : List String} (hleads : t.Leads s.directory place)
    (h : clear t s = .ok (u, s')) :
    Holds u s' [] [] := by
  unfold clear at h
  cases hfirst : removeIfThere t s.entriesPath with
  | error e =>
    rw [hfirst] at h
    cases h
  | ok v =>
    rw [hfirst] at h
    obtain ⟨hleads', hentries, -⟩ := removeIfThere_ok hleads isName_entries hfirst
    cases hsecond : removeIfThere v s.returnsPath with
    | error e =>
      simp only [bind, Except.bind, hsecond] at h
      cases h
    | ok w =>
      simp only [bind, Except.bind, hsecond] at h
      cases h
      obtain ⟨hleads'', hreturns, hothers⟩ := removeIfThere_ok hleads' isName_returns hsecond
      refine ⟨place, hleads'', ⟨[], .inl ⟨?_, rfl⟩, rfl⟩, ⟨[], .inl ⟨hreturns, rfl⟩, rfl⟩⟩
      rw [hothers _ (returns_ne_entries place).symm, hentries]

theorem Written.not_directory {α : Type} {json : α → Json} {place : List String} {records : List α}
    (h : Written json t place records) : t.node? place ≠ some .directory := by
  rcases h with ⟨hnode, -⟩ | hnode <;> simp [hnode]

theorem Written.congr {α : Type} {json : α → Json} {place : List String} {records : List α}
    (h : Written json t place records) (hnode : u.node? place = t.node? place) :
    Written json u place records := by
  unfold Written
  rwa [hnode]

theorem Holds.exists_clear (h : Holds t s entries returns) :
    ∃ u s', clear t s = .ok (u, s') ∧ Holds u s' [] [] := by
  obtain ⟨place, hleads, ⟨_, hentries, -⟩, ⟨_, hreturns, -⟩⟩ := h
  obtain ⟨v, hfirst⟩ := exists_removeIfThere hleads isName_entries hentries.not_directory
  obtain ⟨hleads', -, hothers⟩ := removeIfThere_ok hleads isName_entries hfirst
  have hreturns' : Written Return.json v (place ++ ["returns.jsonl"]) _ :=
    hreturns.congr (hothers _ (returns_ne_entries place))
  obtain ⟨w, hsecond⟩ := exists_removeIfThere hleads' isName_returns hreturns'.not_directory
  have hclear : clear t s = .ok (w, { directory := s.directory }) := by
    unfold clear entriesPath returnsPath
    simp only [hfirst, hsecond, bind, Except.bind]
    rfl
  exact ⟨w, _, hclear, clear_ok hleads hclear⟩

theorem create_ok {directory : Path} (hwf : t.WellFormed) (h : create t directory = .ok (u, s)) :
    Holds u s [] [] := by
  unfold create at h
  cases hmake : t.makeDirectories directory with
  | error e =>
    rw [hmake] at h
    cases h
  | ok v =>
    rw [hmake] at h
    obtain ⟨place, hleads⟩ := FileTree.exists_leads_of_makeDirectories hwf hmake
    exact clear_ok hleads h

theorem Holds.exists_flushEntries (h : Holds t s entries returns) :
    ∃ u s', flushEntries t s = .ok (u, s') ∧ Holds u s' entries returns := by
  obtain ⟨place, hleads, ⟨written, hentries, rfl⟩, ⟨written', hreturns, rfl⟩⟩ := h
  obtain ⟨u, happend, hkeeps, hentries', hothers⟩ :=
    exists_appendRecords (hleads.resolveNew isName_entries) hentries s.pendingEntries.toList
  refine ⟨u, { s with pendingEntries := #[] }, ?_, place, hleads.keeps hkeeps,
    ⟨_, hentries', by simp⟩, ⟨written', hreturns.congr (hothers _ (returns_ne_entries place)), rfl⟩⟩
  unfold flushEntries entriesPath
  rw [happend]
  rfl

theorem Holds.exists_flushReturns (h : Holds t s entries returns) :
    ∃ u s', flushReturns t s = .ok (u, s') ∧ Holds u s' entries returns := by
  obtain ⟨place, hleads, ⟨written, hentries, rfl⟩, ⟨written', hreturns, rfl⟩⟩ := h
  obtain ⟨u, happend, hkeeps, hreturns', hothers⟩ :=
    exists_appendRecords (hleads.resolveNew isName_returns) hreturns s.pendingReturns.toList
  refine ⟨u, { s with pendingReturns := #[] }, ?_, place, hleads.keeps hkeeps,
    ⟨written, hentries.congr (hothers _ (returns_ne_entries place).symm), rfl⟩,
    ⟨_, hreturns', by simp⟩⟩
  unfold flushReturns returnsPath
  rw [happend]
  rfl

theorem Holds.exists_finish (h : Holds t s entries returns) :
    ∃ u s', finish t s = .ok (u, s') ∧ Holds u s' entries returns := by
  obtain ⟨v, r, hfirst, hr⟩ := h.exists_flushEntries
  obtain ⟨u, s', hsecond, hs'⟩ := hr.exists_flushReturns
  refine ⟨u, s', ?_, hs'⟩
  unfold finish
  rw [hfirst]
  exact hsecond

theorem Holds.exists_append (h : Holds t s entries returns) (record : Record) :
    ∃ u s', append t s record = .ok (u, s') ∧
      Holds u s' (entries ++ entriesOf [record]) (returns ++ returnsOf [record]) := by
  obtain ⟨place, hleads, ⟨written, hentries, rfl⟩, ⟨written', hreturns, rfl⟩⟩ := h
  cases record with
  | entry e =>
    have hadded : Holds t { s with pendingEntries := s.pendingEntries.push e }
        (written ++ s.pendingEntries.toList ++ [e]) (written' ++ s.pendingReturns.toList ++ []) :=
      ⟨place, hleads, ⟨written, hentries, by simp⟩, ⟨written', hreturns, by simp⟩⟩
    simp only [append]
    split
    · exact hadded.exists_flushEntries
    · exact ⟨t, _, rfl, hadded⟩
  | result r =>
    have hadded : Holds t { s with pendingReturns := s.pendingReturns.push r }
        (written ++ s.pendingEntries.toList ++ []) (written' ++ s.pendingReturns.toList ++ [r]) :=
      ⟨place, hleads, ⟨written, hentries, by simp⟩, ⟨written', hreturns, by simp⟩⟩
    simp only [append]
    split
    · exact hadded.exists_flushReturns
    · exact ⟨t, _, rfl, hadded⟩

/-- The calls follow from the records, however many of them are in the files. -/
theorem Holds.exists_calls (h : Holds t s entries returns) :
    ∃ calls, s.calls t = .ok calls ∧ Correlated entries returns calls := by
  obtain ⟨place, hleads, ⟨written, hentries, rfl⟩, ⟨written', hreturns, rfl⟩⟩ := h
  refine ⟨_, ?_, (firsts_mergeSort (written ++ s.pendingEntries.toList)).correlated _⟩
  unfold calls entriesPath returnsPath
  rw [readRecordFile_written (hleads.resolveNew isName_returns) hreturns Return.faithful,
    readRecordFile_written (hleads.resolveNew isName_entries) hentries Entry.faithful]
  rfl

end FileStorage

/-! ## Records in memory -/

theorem MemoryStorage.append_ofRecords (records : List Record) (record : Record) :
    (MemoryStorage.ofRecords (entriesOf records) (returnsOf records)).append record =
      .ofRecords (entriesOf records ++ entriesOf [record])
        (returnsOf records ++ returnsOf [record]) := by
  cases record with
  | entry e => simp [append, ofRecords, entriesOf, returnsOf]
  | result r => simp [append, ofRecords, entriesOf, returnsOf]

/-! ## Either storage -/

namespace Storage

def Holds (t : FileTree) (s : Storage) (records : List Record) : Prop :=
  match s with
  | memory s => s = .ofRecords (entriesOf records) (returnsOf records)
  | file s => s.Holds t (entriesOf records) (returnsOf records)

variable {t u : FileTree} {s : Storage} {records : List Record}

theorem create_ok {kind : StorageKind} (hwf : t.WellFormed) (h : create t kind = .ok (u, s)) :
    s.Holds u [] := by
  cases kind with
  | memory =>
    cases h
    rfl
  | file directory =>
    rw [create] at h
    cases hcreate : FileStorage.create t directory with
    | error e =>
      rw [hcreate] at h
      cases h
    | ok state =>
      rw [hcreate] at h
      cases h
      exact FileStorage.create_ok hwf hcreate

theorem Holds.exists_append (h : s.Holds t records) (record : Record) :
    ∃ u s', s.append t record = .ok (u, s') ∧ s'.Holds u (records ++ [record]) := by
  have happend : entriesOf (records ++ [record]) = entriesOf records ++ entriesOf [record] ∧
      returnsOf (records ++ [record]) = returnsOf records ++ returnsOf [record] :=
    ⟨List.filterMap_append .., List.filterMap_append ..⟩
  cases s with
  | memory s =>
    obtain rfl : s = _ := h
    refine ⟨t, _, rfl, ?_⟩
    rw [Holds, happend.1, happend.2, MemoryStorage.append_ofRecords]
  | file s =>
    obtain ⟨u, s', hs', hholds⟩ := FileStorage.Holds.exists_append h record
    refine ⟨u, file s', ?_, ?_⟩
    · rw [append, hs']
      rfl
    · rw [Holds, happend.1, happend.2]
      exact hholds

theorem Holds.exists_finish (h : s.Holds t records) :
    ∃ u s', s.finish t = .ok (u, s') ∧ s'.Holds u records := by
  cases s with
  | memory s => exact ⟨t, _, rfl, h⟩
  | file s =>
    obtain ⟨u, s', hs', hholds⟩ := FileStorage.Holds.exists_finish h
    exact ⟨u, file s', by rw [finish, hs']; rfl, hholds⟩

theorem Holds.exists_clear (h : s.Holds t records) :
    ∃ u s', s.clear t = .ok (u, s') ∧ s'.Holds u [] := by
  cases s with
  | memory s => exact ⟨t, _, rfl, rfl⟩
  | file s =>
    obtain ⟨u, s', hs', hholds⟩ := FileStorage.Holds.exists_clear h
    exact ⟨u, file s', by rw [clear, hs']; rfl, hholds⟩

theorem Holds.exists_appendAll (h : s.Holds t records) (more : List Record) :
    ∃ u s', s.appendAll t more = .ok (u, s') ∧ s'.Holds u (records ++ more) := by
  induction more generalizing t s records with
  | nil => exact ⟨t, s, rfl, by rwa [List.append_nil]⟩
  | cons record more ih =>
    obtain ⟨u, s', hs', hholds⟩ := h.exists_append record
    obtain ⟨v, s'', hs'', hholds'⟩ := ih hholds
    refine ⟨v, s'', ?_, by rwa [List.append_assoc] at hholds'⟩
    rw [appendAll, List.foldlM_cons]
    simp only [hs']
    exact hs''

theorem Holds.exists_calls (h : s.Holds t records) :
    ∃ calls, s.calls t = .ok calls ∧ Correlated (entriesOf records) (returnsOf records) calls := by
  cases s with
  | memory s =>
    obtain rfl : s = _ := h
    exact ⟨_, rfl, MemoryStorage.correlated_calls _ _⟩
  | file s => exact FileStorage.Holds.exists_calls h

end Storage

inductive Operation where
  | append (record : Record)
  | finish
  | clear
  deriving DecidableEq, Repr

namespace Storage

def perform (t : FileTree) (s : Storage) : Operation → Except StorageError (FileTree × Storage)
  | .append record => s.append t record
  | .finish => s.finish t
  | .clear => s.clear t

def performAll (t : FileTree) (s : Storage) (ops : List Operation) :
    Except StorageError (FileTree × Storage) :=
  ops.foldlM (fun (t, s) op => s.perform t op) (t, s)

/-- The records that operations leave, given those that are there. -/
def keptAfter (records : List Record) : List Operation → List Record
  | [] => records
  | .append record :: ops => keptAfter (records ++ [record]) ops
  | .finish :: ops => keptAfter records ops
  | .clear :: ops => keptAfter [] ops

variable {t : FileTree} {s : Storage} {records : List Record}

theorem Holds.exists_perform (h : s.Holds t records) (op : Operation) :
    ∃ u s', s.perform t op = .ok (u, s') ∧ s'.Holds u (keptAfter records [op]) := by
  cases op with
  | append record => exact h.exists_append record
  | finish => exact h.exists_finish
  | clear => exact h.exists_clear

theorem Holds.exists_performAll (h : s.Holds t records) (ops : List Operation) :
    ∃ u s', s.performAll t ops = .ok (u, s') ∧ s'.Holds u (keptAfter records ops) := by
  induction ops generalizing t s records with
  | nil => exact ⟨t, s, rfl, h⟩
  | cons op ops ih =>
    obtain ⟨u, s', hs', hholds⟩ := h.exists_perform op
    obtain ⟨v, s'', hs'', hholds'⟩ := ih hholds
    refine ⟨v, s'', ?_, ?_⟩
    · rw [performAll, List.foldlM_cons]
      simp only [hs']
      exact hs''
    · cases op <;> exact hholds'

/-- A storage in files and one in memory hand out the same calls after the same operations: for each
number among the entries that were added since the last clearing, the first entry and the first
return. -/
theorem calls_agree (hwf : t.WellFormed) {directory : Path} {t' : FileTree}
    (hcreate : create t (.file directory) = .ok (t', s)) (ops : List Operation) :
    ∃ u inFiles u' inMemory calls, s.performAll t' ops = .ok (u, inFiles) ∧
      performAll t (.memory {}) ops = .ok (u', inMemory) ∧
      inFiles.calls u = .ok calls ∧ inMemory.calls u' = .ok calls ∧
      Correlated (entriesOf (keptAfter [] ops)) (returnsOf (keptAfter [] ops)) calls := by
  have hmemory : create t .memory = .ok (t, .memory {}) := rfl
  obtain ⟨u, inFiles, hfiles, hholds⟩ := (create_ok hwf hcreate).exists_performAll ops
  obtain ⟨u', inMemory, hmemory, hholds'⟩ := (create_ok hwf hmemory).exists_performAll ops
  obtain ⟨calls, hcalls, hcorrelated⟩ := hholds.exists_calls
  obtain ⟨calls', hcalls', hcorrelated'⟩ := hholds'.exists_calls
  rw [hcorrelated'.unique hcorrelated] at hcalls'
  exact ⟨u, inFiles, u', inMemory, calls, hfiles, hmemory, hcalls, hcalls', hcorrelated⟩

def entryOf (call : UInt64) (parameters : List String) : Record :=
  .entry ⟨call, "App\\Foo->bar", true, "/p/src/Foo.php", parameters⟩

/-- Calls out of order, some of them twice, before and after the records are written. -/
def crossedOperations : List Operation :=
  [.append (entryOf 7 ["TRUE"]), .append (.result ⟨3, "NULL"⟩), .clear,
    .append (.result ⟨7, "long"⟩),
   .append (entryOf 7 ["'x'"]), .finish, .append (entryOf 3 []), .append (.result ⟨7, "TRUE"⟩),
   .append (entryOf 7 [])]

theorem calls_agree_crossed :
    (FileTree.ofBase ["p"]).WellFormed ∧
      ∃ t s u inFiles, create (.ofBase ["p"]) (.file ⟨"store"⟩) = .ok (t, s) ∧
        s.performAll t crossedOperations = .ok (u, inFiles) ∧
        (inFiles.calls u).map (·.map fun c => (c.entry.call, c.parameters, c.result)) =
          .ok [(3, [], none), (7, [.scalar .string], some (.scalar .int))] := by
  have hwf : (FileTree.ofBase ["p"]).WellFormed := by decide +kernel
  have hcreate : (create (.ofBase ["p"]) (.file ⟨"store"⟩)).isOk = true := by decide +kernel
  have hmemory : ((performAll (.ofBase ["p"]) (.memory {}) crossedOperations).bind fun (t, s) =>
      (s.calls t).map (·.map fun c => (c.entry.call, c.parameters, c.result))) =
        .ok [(3, [], none), (7, [.scalar .string], some (.scalar .int))] := by decide +kernel
  cases hstorage : create (.ofBase ["p"]) (.file ⟨"store"⟩) with
  | error e =>
    rw [hstorage] at hcreate
    cases hcreate
  | ok state =>
    obtain ⟨u, inFiles, u', inMemory, calls, hfiles, hperformed, hcalls, hcalls', -⟩ :=
      calls_agree hwf hstorage crossedOperations
    refine ⟨hwf, state.1, state.2, u, inFiles, rfl, hfiles, ?_⟩
    rw [hperformed] at hmemory
    rw [hcalls, ← hcalls']
    exact hmemory

end Storage
end SignatureInference.Trace
