import SignatureInference.Proofs.Trace.Reading

/-! # Reading a trace into a storage

The records of a trace are stored when all of it has been read. That comes to the same as reading
and storing line by line, the faults of the storage included, so a trace is known by the lines that
are read of it: those between header and footer.
-/
namespace SignatureInference.Trace

open Text

section

variable (index : Index) (filter : PathFilter)

/-! ## Line by line -/

def Reading.recordsSince (s s' : Reading) : List Record := s'.records.toList.drop s.records.size

theorem Reading.recordsSince_eq {s s' : Reading} {more : List Record}
    (h : s'.records.toList = s.records.toList ++ more) : s.recordsSince s' = more := by
  rw [recordsSince, h, ← Array.length_toList, List.drop_left]

/-- Reads a line into a storage: the records that the line adds go there at once. -/
def Intake.readLine (i : Intake) (line : List Char) : Except StorageError Intake :=
  let reading := i.reading.readLine index filter line
  (i.storage.appendAll i.tree (i.reading.recordsSince reading)).map fun p => ⟨p.1, p.2, reading⟩

def Intake.finish (lines : Nat) (i : Intake) : Except StorageError Intake :=
  (i.storage.finish i.tree).map fun p =>
    ⟨p.1, p.2, { i.reading with stats := { i.reading.stats with lines } }⟩

theorem Intake.lines_of_finish {lines : Nat} {i j : Intake} (h : Intake.finish lines i = .ok j) :
    j.reading.stats.lines = lines := by
  unfold finish at h
  cases hfinish : i.storage.finish i.tree with
  | error e =>
    rw [hfinish] at h
    cases h
  | ok p =>
    rw [hfinish] at h
    cases h
    rfl

theorem Reading.exists_records_readLine (s : Reading) (line : List Char) :
    ∃ more, (s.readLine index filter line).records.toList = s.records.toList ++ more := by
  obtain ⟨-, ⟨call, -, -, hrecords⟩ | ⟨call, -, -, -, hrecords⟩ | ⟨-, -, -, hrecords⟩⟩ :=
    readLine_cases index filter s line
  · exact ⟨_, by rw [hrecords, Array.toList_push]⟩
  · exact ⟨_, by rw [hrecords, Array.toList_push]⟩
  · exact ⟨[], by rw [hrecords, List.append_nil]⟩

theorem Reading.exists_records_foldl (lines : List (List Char)) (s : Reading) :
    ∃ more, (lines.foldl (readLine index filter) s).records.toList = s.records.toList ++ more := by
  induction lines generalizing s with
  | nil => exact ⟨[], (List.append_nil _).symm⟩
  | cons line lines ih =>
    obtain ⟨more, hline⟩ := s.exists_records_readLine index filter line
    obtain ⟨rest, hlines⟩ := ih (s.readLine index filter line)
    exact ⟨more ++ rest, by rw [List.foldl_cons, hlines, hline, List.append_assoc]⟩

theorem Storage.appendAll_append (t : FileTree) (s : Storage) (records more : List Record) :
    s.appendAll t (records ++ more) = (s.appendAll t records).bind fun p =>
      p.2.appendAll p.1 more := by
  rw [appendAll, List.foldlM_append]
  rfl

/-- Storing the records of lines at the end comes to the same as storing them line by line. -/
theorem Intake.foldlM_readLine (lines : List (List Char)) (i : Intake) :
    lines.foldlM (Intake.readLine index filter) i =
      let reading := lines.foldl (Reading.readLine index filter) i.reading
      (i.storage.appendAll i.tree (i.reading.recordsSince reading)).map fun p =>
        ⟨p.1, p.2, reading⟩ := by
  induction lines generalizing i with
  | nil =>
    have hnone : i.reading.recordsSince i.reading = [] :=
      Reading.recordsSince_eq (List.append_nil _).symm
    simp only [List.foldl_nil, hnone]
    rfl
  | cons line lines ih =>
    obtain ⟨more, hline⟩ := i.reading.exists_records_readLine index filter line
    obtain ⟨rest, hlines⟩ :=
      Reading.exists_records_foldl index filter lines (i.reading.readLine index filter line)
    have hfirst := Reading.recordsSince_eq hline
    have hrest := Reading.recordsSince_eq hlines
    rw [hline, List.append_assoc] at hlines
    have hall := Reading.recordsSince_eq hlines
    simp only [List.foldlM_cons, List.foldl_cons, hall, Storage.appendAll_append, readLine, hfirst]
    cases i.storage.appendAll i.tree more with
    | error e => rfl
    | ok p =>
      refine (ih ⟨p.1, p.2, i.reading.readLine index filter line⟩).trans ?_
      simp only [hrest]
      rfl

end

/-! ## Whole traces -/

theorem length_byteLines {bytes : List UInt8} {lines : List (List UInt8)}
    (h : LinesOf bytes lines) :
    (byteLines bytes).length = lines.length := by
  rw [h.byteLines_eq, List.length_map]

theorem bodyLines_byteLines {bytes : List UInt8} {lines : List (List UInt8)}
    (h : LinesOf bytes lines) :
    bodyLines (byteLines bytes) = ((lines.take (lines.length - 2)).drop 3).map strippedText := by
  rw [bodyLines, List.map_take, List.map_drop, map_lineText h, length_byteLines h, List.drop_take,
    List.map_take, List.map_drop, Nat.sub_right_comm]
  rfl

/-- A trace is read into a storage line by line, and the storage is finished at its end. -/
theorem Storage.readTrace_eq (index : Index) (filter : PathFilter) (t : FileTree) (s : Storage)
    (doubles : Doubles) {bytes : List UInt8} {lines : List (List UInt8)} (h : LinesOf bytes lines) :
    s.readTrace index filter t doubles bytes =
      ((((lines.take (lines.length - 2)).drop 3).map strippedText).foldlM
        (Intake.readLine index filter)
        ⟨t, s, { doubles }⟩).bind (Intake.finish lines.length) := by
  have hall : ∀ reading : Reading, Reading.recordsSince { doubles } reading =
      reading.records.toList :=
    fun reading => Reading.recordsSince_eq rfl
  rw [Intake.foldlM_readLine, ← bodyLines_byteLines h, readTrace, Reading.ofBytes_eq,
    length_byteLines h]
  simp only [hall]
  generalize (bodyLines (byteLines bytes)).foldl (Reading.readLine index filter) { doubles } =
    reading
  cases s.appendAll t reading.records.toList with
  | error e => rfl
  | ok p =>
    simp only [bind, Except.bind, Except.map, Intake.finish]
    cases p.2.finish p.1 with
    | error e => rfl
    | ok q => rfl

/-- Bytes are lines in one way. Reading them into a storage reads the lines between the first three
and the last two, each one once and in their order, as text without line breaks; none is read if
there are five lines or fewer. Then the storage is finished, and the number of lines is told. -/
theorem Storage.reads_framed_lines (index : Index) (filter : PathFilter) (bytes : List UInt8) :
    ∃ lines, (∀ lines', LinesOf bytes lines' ↔ lines' = lines) ∧
      ∀ (t : FileTree) (s : Storage) (doubles : Doubles),
        s.readTrace index filter t doubles bytes =
          ((((lines.take (lines.length - 2)).drop 3).map strippedText).foldlM
            (Intake.readLine index filter)
            ⟨t, s, { doubles }⟩).bind (Intake.finish lines.length) ∧
        (lines.length ≤ 5 →
          s.readTrace index filter t doubles bytes =
            Intake.finish lines.length ⟨t, s, { doubles }⟩) ∧
        ∀ i, s.readTrace index filter t doubles bytes = .ok i →
        i.reading.stats.lines = lines.length := by
  obtain ⟨lines, h⟩ := exists_linesOf bytes
  refine ⟨lines, fun lines' => ⟨fun h' => h'.unique h, fun heq => heq ▸ h⟩, fun t s doubles => ?_⟩
  have hread := s.readTrace_eq index filter t doubles h
  refine ⟨hread, ?_, ?_⟩
  · intro hfive
    have hnone : (lines.take (lines.length - 2)).drop 3 = [] :=
      List.drop_of_length_le (by rw [List.length_take]; omega)
    rw [hread, hnone]
    rfl
  · intro i hi
    rw [hread] at hi
    generalize List.foldlM (Intake.readLine index filter) _ _ = body at hi
    cases body with
    | error e => cases hi
    | ok j => exact Intake.lines_of_finish hi

end SignatureInference.Trace
