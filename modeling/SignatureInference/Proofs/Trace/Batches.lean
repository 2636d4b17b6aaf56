import SignatureInference.Proofs.Trace.Storages

/-! # Records that are written in batches

The records of all batches that were written to a new file are read back, in their order. The texts
of a record may be any: quotes, backslashes, control characters and line breaks are escaped, so that
a record takes one line.
-/
namespace SignatureInference.Trace

open FileStorage (Written)

section

variable {α : Type} (json : α → Json)

def appendBatches (t : FileTree) (path : Path) (batches : List (List α)) :
    Except StorageError FileTree :=
  batches.foldlM (fun t batch => appendRecords t path (batch.map json)) t

variable {json} {ofJson? : Json → Option α} {t u : FileTree} {path : Path} {place : List String}

/-- All batches are written behind the records that are there. -/
theorem exists_appendBatches (hnew : t.resolveNew path = .ok place) {written : List α}
    (hwritten : Written json t place written) (batches : List (List α)) :
    ∃ u, appendBatches json t path batches = .ok u ∧ u.resolveNew path = .ok place ∧
      Written json u place (written ++ batches.flatten) := by
  induction batches generalizing t written with
  | nil => exact ⟨t, rfl, hnew, by rwa [List.flatten_nil, List.append_nil]⟩
  | cons batch batches ih =>
    obtain ⟨v, hfirst, hkeeps, hwritten', -⟩ := FileStorage.exists_appendRecords hnew hwritten batch
    obtain ⟨u, hrest, hnew', hall⟩ := ih (hkeeps.resolveNew hnew) hwritten'
    refine ⟨u, ?_, hnew', ?_⟩
    · rw [appendBatches, List.foldlM_cons, hfirst]
      exact hrest
    · rwa [List.flatten_cons, ← List.append_assoc]

theorem exists_of_appendRecords {records : List Json} (h : appendRecords t path records = .ok u) :
    records = [] ∧ u = t ∨ ∃ place, t.resolveNew path = .ok place := by
  unfold appendRecords at h
  split at h
  · next hempty =>
    cases h
    exact .inl ⟨List.isEmpty_iff.mp hempty, rfl⟩
  · unfold FileTree.append at h
    cases hnew : t.resolveNew path with
    | error e =>
      rw [hnew] at h
      cases h
    | ok place => exact .inr ⟨place, rfl⟩

theorem exists_of_appendBatches {batches : List (List α)}
    (h : appendBatches json t path batches = .ok u) :
    batches.flatten = [] ∧ u = t ∨ ∃ place, t.resolveNew path = .ok place := by
  induction batches with
  | nil =>
    cases h
    exact .inl ⟨rfl, rfl⟩
  | cons batch batches ih =>
    rw [appendBatches, List.foldlM_cons] at h
    cases hfirst : appendRecords t path (batch.map json) with
    | error e =>
      rw [hfirst] at h
      cases h
    | ok v =>
      rw [hfirst] at h
      obtain ⟨hbatch, rfl⟩ | hplace := exists_of_appendRecords hfirst
      · obtain ⟨hrest, rfl⟩ | hplace := ih h
        · exact .inl
            ⟨by rw [List.flatten_cons, hrest, List.map_eq_nil_iff.mp hbatch, List.append_nil], rfl⟩
        · exact .inr hplace
      · exact .inr hplace

def Unwritten (t : FileTree) (path : Path) : Prop :=
  t.read path = .error .missing ∨ t.read path = .ok (.text "")

theorem Unwritten.readRecordFile (h : Unwritten t path) (hfaithful : Faithful json ofJson?) :
    readRecordFile ofJson? t path = .ok [] := by
  unfold Trace.readRecordFile
  rcases h with hread | hread
  · rw [hread]
  · rw [hread]
    exact readRecords_contentLines hfaithful path []

theorem Unwritten.written (h : Unwritten t path) (hnew : t.resolveNew path = .ok place) :
    Written json t place [] := by
  unfold Unwritten at h
  rw [FileTree.read_of_resolveNew hnew] at h
  cases hnode : t.node? place with
  | none => exact .inl ⟨hnode, rfl⟩
  | some node =>
    rw [hnode] at h
    cases node with
    | directory => simp at h
    | file contents =>
      have hempty : contents = .text "" := by simpa using h
      exact .inr (hempty ▸ hnode)

theorem exists_appendBatches_of_unwritten (h : Unwritten t path)
    (hnew : t.resolveNew path = .ok place) (hfaithful : Faithful json ofJson?)
    (batches : List (List α)) :
    ∃ u, appendBatches json t path batches = .ok u ∧
      readRecordFile ofJson? u path = .ok batches.flatten := by
  obtain ⟨u, happend, hnew', hwritten⟩ := exists_appendBatches hnew (h.written hnew) batches
  exact ⟨u, happend, FileStorage.readRecordFile_written hnew' hwritten hfaithful⟩

theorem readRecordFile_of_appendBatches (h : Unwritten t path) (hfaithful : Faithful json ofJson?)
    {batches : List (List α)} (happend : appendBatches json t path batches = .ok u) :
    readRecordFile ofJson? u path = .ok batches.flatten := by
  obtain ⟨hnothing, rfl⟩ | ⟨place, hnew⟩ := exists_of_appendBatches happend
  · rw [hnothing]
    exact h.readRecordFile hfaithful
  · obtain ⟨v, happend', hread⟩ := exists_appendBatches_of_unwritten h hnew hfaithful batches
    rw [happend] at happend'
    cases happend'
    exact hread

end

/-- Whatever entries or returns are written in batches to a file that was missing or empty, they are
read back in their order. The batches can be written wherever a file can. -/
theorem batches_read_back (t : FileTree) (path : Path) (h : Unwritten t path) :
    (∀ batches : List (List Entry),
      (∀ u, appendBatches Entry.json t path batches = .ok u →
        readRecordFile Entry.ofJson? u path = .ok batches.flatten) ∧
      ∀ place, t.resolveNew path = .ok place →
      ∃ u, appendBatches Entry.json t path batches = .ok u) ∧
    ∀ batches : List (List Return),
      (∀ u, appendBatches Return.json t path batches = .ok u →
        readRecordFile Return.ofJson? u path = .ok batches.flatten) ∧
      ∀ place, t.resolveNew path = .ok place →
      ∃ u, appendBatches Return.json t path batches = .ok u := by
  refine ⟨fun batches => ⟨fun u happend => ?_, fun place hnew => ?_⟩,
    fun batches => ⟨fun u happend => ?_, fun place hnew => ?_⟩⟩
  · exact readRecordFile_of_appendBatches h Entry.faithful happend
  · obtain ⟨u, happend, -⟩ := exists_appendBatches_of_unwritten h hnew Entry.faithful batches
    exact ⟨u, happend⟩
  · exact readRecordFile_of_appendBatches h Return.faithful happend
  · obtain ⟨u, happend, -⟩ := exists_appendBatches_of_unwritten h hnew Return.faithful batches
    exact ⟨u, happend⟩

/-- Entries with the largest number, line breaks, quotes and empty texts, and an empty batch between
them. -/
def oddBatches : List (List Entry) :=
  [[⟨18446744073709551615, "App\\Foo->\"bar\"", true, "a\r\nb", ["", "\n", "'\u0000 '"]⟩], [],
   [⟨0, "", false, "", []⟩, ⟨0, " ", true, "\x7b\x7d", ["é"]⟩]]

theorem batches_read_back_odd :
    Unwritten (.ofBase ["p"]) ⟨"entries.jsonl"⟩ ∧
      ∃ u, appendBatches Entry.json (.ofBase ["p"]) ⟨"entries.jsonl"⟩ oddBatches = .ok u ∧
        readRecordFile Entry.ofJson? u ⟨"entries.jsonl"⟩ = .ok oddBatches.flatten := by
  have hunwritten : Unwritten (.ofBase ["p"]) ⟨"entries.jsonl"⟩ := .inl (by decide +kernel)
  have hnew : (FileTree.ofBase ["p"]).resolveNew ⟨"entries.jsonl"⟩ =
      .ok ["p", "entries.jsonl"] := by
    decide +kernel
  obtain ⟨hback, hwritten⟩ := (batches_read_back _ _ hunwritten).1 oddBatches
  obtain ⟨u, hu⟩ := hwritten _ hnew
  exact ⟨hunwritten, u, hu, hback u hu⟩

end SignatureInference.Trace
