import SignatureInference.Proofs.Trace.Framing
import SignatureInference.Proofs.Trace.Storages

/-! # What a trace tells of calls

A trace is read line by line, and what is kept of it depends on the lines before: on the doubles
that they declare, and on the calls that they enter. For a single call this comes to the first line
that enters it and the first line after that one that returns from it.
-/
namespace SignatureInference.Trace

def fieldsOf (line : List Char) : List (List Char) := Text.splitWhere (· == '\t') line

def field (line : List Char) (i : Nat) : List Char := (fieldsOf line).getD i []

def argumentsOf (line : List Char) : List String := ((fieldsOf line).drop 11).map String.ofList

/-- A line with the entry of a call that is kept: of a function that the project declares in a
namespace. -/
structure Retained (index : Index) (filter : PathFilter) (line : List Char)
    (call : UInt64) : Prop where
  fields : 11 ≤ (fieldsOf line).length
  number : callNumber? (field line 1) = some call
  user : Text.trim (field line 6) = ['1']
  admitted : filter.excludes (String.ofList (Text.trim (field line 8))) = false
  declared : ∃ f, FunctionName.read? (String.ofList (field line 5)) = some f ∧ f.kind ≠ .closure ∧
    f.namespaceName ≠ "" ∧
    (index.functionFile? f.namespaceName f.className f.function).isSome = true

def isReturnFrom (call : UInt64) (line : List Char) : Bool :=
  (fieldsOf line).length == 6 && callNumber? (field line 1) == some call

/-- The doubles that are known after a line: every entry may declare some. -/
def observeLine (doubles : Doubles) (line : List Char) : Doubles :=
  if 11 ≤ (fieldsOf line).length ∧ (callNumber? (field line 1)).isSome = true then
    doubles.observe (argumentsOf line)
  else doubles

def doublesOf (lines : List (List Char)) : Doubles := lines.foldl observeLine {}

def Entry.ofLine (doubles : Doubles) (call : UInt64) (line : List Char) : Entry where
  call
  function := String.ofList (Text.trim (field line 5))
  userDefined := true
  file := String.ofList (Text.trim (field line 8))
  parameters := (argumentsOf line).map doubles.replace

/-- The result on the first line that returns from a call, with the doubles replaced that are known
there. The lines come after those that were seen. -/
def resultAfter (seen : List (List Char)) (call : UInt64) (lines : List (List Char)) :
    Option String :=
  (lines.find? (isReturnFrom call)).map fun line =>
    (doublesOf (seen ++ lines.takeWhile (!isReturnFrom call ·))).replace
      (String.ofList (field line 5))

/-- A call as lines tell it: the entry is on the first line that is kept for its number, the result
on the first line after that one that returns from it. -/
def Tells (index : Index) (filter : PathFilter) (lines : List (List Char)) (c : Call) : Prop :=
  ∃ before line after call, lines = before ++ line :: after ∧ Retained index filter line call ∧
    (∀ l ∈ before, ¬Retained index filter l call) ∧
    c = Call.of (.ofLine (doublesOf (before ++ [line])) call line)
      (resultAfter (before ++ [line]) call after)

variable {index : Index} {filter : PathFilter} {s : Reading} {line : List Char}

theorem Retained.not_isReturnFrom {call : UInt64} (h : Retained index filter line call)
    (call' : UInt64) :
    ¬isReturnFrom call' line = true := by
  intro hreturn
  have := h.fields
  simp only [isReturnFrom, Bool.and_eq_true, beq_iff_eq] at hreturn
  omega

namespace Reading

theorem isTarget_iff {name : List Char} :
    isTarget index name = true ↔ ∃ f, FunctionName.read? (String.ofList name) = some f ∧
      f.kind ≠ .closure ∧ f.namespaceName ≠ "" ∧
      (index.functionFile? f.namespaceName f.className f.function).isSome = true := by
  unfold isTarget
  cases FunctionName.read? (String.ofList name) with
  | none => simp
  | some f => simp [and_assoc]

theorem readLine_eq (s : Reading) (line : List Char) :
    s.readLine index filter line =
      if (fieldsOf line).length = 6 then s.readReturn (field line 1) (field line 5)
      else if 11 ≤ (fieldsOf line).length then
        s.readEntry index filter (field line 1) (field line 5) (field line 6) (field line 8)
          ((fieldsOf line).drop 11)
      else s := by
  unfold readLine field fieldsOf
  generalize Text.splitWhere (· == '\t') line = fields
  match fields with
  | [] => rfl
  | [_] => rfl
  | [_, _] => rfl
  | [_, _, _] => rfl
  | [_, _, _, _] => rfl
  | [_, _, _, _, _] => rfl
  | [_, _, _, _, _, _] => rfl
  | [_, _, _, _, _, _, _] => rfl
  | [_, _, _, _, _, _, _, _] => rfl
  | [_, _, _, _, _, _, _, _, _] => rfl
  | [_, _, _, _, _, _, _, _, _, _] => rfl
  | _ :: _ :: _ :: _ :: _ :: _ :: _ :: _ :: _ :: _ :: _ :: parameters => simp

/-- Everything that reading a line does: it enters a call, it returns from a call that was entered,
or it keeps nothing. -/
theorem readLine_cases (index : Index) (filter : PathFilter) (s : Reading) (line : List Char) :
    (s.readLine index filter line).doubles = observeLine s.doubles line ∧
      ((∃ call, Retained index filter line call ∧
          (s.readLine index filter line).retained = s.retained.insert call () ∧
          (s.readLine index filter line).records =
            s.records.push (.entry (.ofLine (observeLine s.doubles line) call line))) ∨
        (∃ call, isReturnFrom call line = true ∧ s.retained.contains call = true ∧
          (s.readLine index filter line).retained = s.retained ∧
          (s.readLine index filter line).records =
            s.records.push (.result ⟨call, s.doubles.replace (String.ofList (field line 5))⟩)) ∨
        (∀ call, ¬Retained index filter line call) ∧
          (∀ call, isReturnFrom call line = true → s.retained.contains call = false) ∧
          (s.readLine index filter line).retained = s.retained ∧
          (s.readLine index filter line).records = s.records) := by
  rw [readLine_eq]
  by_cases hreturn : (fieldsOf line).length = 6
  · have hnot : ∀ call, ¬Retained index filter line call := by
      intro call h
      have := h.fields
      omega
    have hobserve : observeLine s.doubles line = s.doubles := by
      rw [observeLine, if_neg (by omega)]
    rw [if_pos hreturn, hobserve, readReturn]
    cases hnumber : callNumber? (field line 1) with
    | none => exact ⟨rfl, .inr (.inr ⟨hnot, by simp [isReturnFrom, hnumber], rfl, rfl⟩)⟩
    | some call =>
      simp only
      split
      · next hretained =>
        have hfrom : isReturnFrom call line = true := by simp [isReturnFrom, hreturn, hnumber]
        exact ⟨rfl, .inr (.inl ⟨call, hfrom, hretained, rfl, rfl⟩)⟩
      · next hretained =>
        refine ⟨rfl, .inr (.inr ⟨hnot, fun call' hcall => ?_, rfl, rfl⟩)⟩
        obtain rfl : call = call' := by simpa [isReturnFrom, hreturn, hnumber] using hcall
        simpa using hretained
  · have hnone : ∀ call, isReturnFrom call line = true → s.retained.contains call = false := by
      simp [isReturnFrom, hreturn]
    rw [if_neg hreturn]
    by_cases hentry : 11 ≤ (fieldsOf line).length
    · rw [if_pos hentry, readEntry]
      cases hnumber : callNumber? (field line 1) with
      | none =>
        have hnot : ∀ call, ¬Retained index filter line call := by
          intro call h
          have := h.number
          rw [hnumber] at this
          cases this
        exact ⟨by simp [observeLine, hnumber], .inr (.inr ⟨hnot, hnone, rfl, rfl⟩)⟩
      | some call =>
        have hobserve : observeLine s.doubles line = s.doubles.observe (argumentsOf line) := by
          rw [observeLine, if_pos ⟨hentry, by rw [hnumber]; rfl⟩]
        rw [hobserve]
        simp only
        split
        · next hkept =>
          simp only [Bool.and_eq_true, beq_iff_eq, Bool.not_eq_true', isTarget_iff] at hkept
          exact ⟨rfl, .inl ⟨call, ⟨hentry, hnumber, hkept.1.1, hkept.1.2, hkept.2⟩, rfl, rfl⟩⟩
        · next hkept =>
          refine ⟨rfl, .inr (.inr ⟨fun call' h => hkept ?_, hnone, rfl, rfl⟩)⟩
          simp only [Bool.and_eq_true, beq_iff_eq, Bool.not_eq_true', isTarget_iff]
          exact ⟨⟨h.user, h.admitted⟩, h.declared⟩
    · have hnot : ∀ call, ¬Retained index filter line call := fun call h => hentry h.fields
      rw [if_neg hentry]
      exact ⟨by rw [observeLine, if_neg (by omega)], .inr (.inr ⟨hnot, hnone, rfl, rfl⟩)⟩

theorem doubles_foldl (index : Index) (filter : PathFilter) (lines : List (List Char))
    (s : Reading) :
    (lines.foldl (readLine index filter) s).doubles = lines.foldl observeLine s.doubles := by
  induction lines generalizing s with
  | nil => rfl
  | cons line lines ih =>
    rw [List.foldl_cons, ih, (readLine_cases index filter s line).1, List.foldl_cons]

theorem contains_insert (retained : SortedSet UInt64) (k l : UInt64) :
    (retained.insert k ()).contains l = (decide (l = k) || retained.contains l) := by
  unfold SortedMap.contains
  rw [SortedMap.get?_insert]
  split <;> simp_all

def entryOf? (records : Array Record) (call : UInt64) : Option Entry :=
  (entriesOf records.toList).find? (·.call = call)

def resultOf? (records : Array Record) (call : UInt64) : Option String :=
  ((returnsOf records.toList).find? (·.call = call)).map (·.value)

theorem entryOf?_push_entry (records : Array Record) (e : Entry) (call : UInt64) :
    entryOf? (records.push (.entry e)) call =
      (entryOf? records call).or (if e.call = call then some e else none) := by
  simp only [entryOf?, entriesOf, Array.toList_push, List.filterMap_append, List.find?_append]
  by_cases h : e.call = call <;> simp [h]

theorem entryOf?_push_result (records : Array Record) (r : Return) (call : UInt64) :
    entryOf? (records.push (.result r)) call = entryOf? records call := by
  simp [entryOf?, entriesOf]

theorem resultOf?_push_entry (records : Array Record) (e : Entry) (call : UInt64) :
    resultOf? (records.push (.entry e)) call = resultOf? records call := by
  simp [resultOf?, returnsOf]

theorem resultOf?_push_result (records : Array Record) (r : Return) (call : UInt64) :
    resultOf? (records.push (.result r)) call =
      (resultOf? records call).or (if r.call = call then some r.value else none) := by
  simp only [resultOf?, returnsOf, Array.toList_push, List.filterMap_append, List.find?_append,
    Option.map_or]
  by_cases h : r.call = call <;> simp [h]

/-- Until a call is entered, nothing is kept of it. -/
theorem foldl_before {call : UInt64} {lines : List (List Char)}
    (hlines : ∀ l ∈ lines, ¬Retained index filter l call) (hs : s.retained.contains call = false) :
    (lines.foldl (readLine index filter) s).retained.contains call = false ∧
      entryOf? (lines.foldl (readLine index filter) s).records call = entryOf? s.records call ∧
      resultOf? (lines.foldl (readLine index filter) s).records call =
        resultOf? s.records call := by
  induction lines generalizing s with
  | nil => exact ⟨hs, rfl, rfl⟩
  | cons line lines ih =>
    have hline := hlines line List.mem_cons_self
    have hrest : ∀ l ∈ lines, ¬Retained index filter l call :=
      fun l hl => hlines l (List.mem_cons_of_mem _ hl)
    rw [List.foldl_cons]
    obtain ⟨-, ⟨call', hretained, hset, hrecords⟩ | ⟨call', -, hknown, hset, hrecords⟩ |
      ⟨-, -, hset, hrecords⟩⟩ := readLine_cases index filter s line
    · have hne : call' ≠ call := by
        rintro rfl
        exact hline hretained
      have hs' : (s.readLine index filter line).retained.contains call = false := by
        rw [hset, contains_insert, hs]
        simpa using hne.symm
      obtain ⟨hkept, hentry, hresult⟩ := ih hrest hs'
      refine ⟨hkept, hentry.trans ?_, hresult.trans ?_⟩
      · rw [hrecords, entryOf?_push_entry, Entry.ofLine, if_neg hne, Option.or_none]
      · rw [hrecords, resultOf?_push_entry]
    · have hne : call' ≠ call := by
        rintro rfl
        rw [hs] at hknown
        cases hknown
      obtain ⟨hkept, hentry, hresult⟩ := ih hrest (hset ▸ hs)
      refine ⟨hkept, hentry.trans ?_, hresult.trans ?_⟩
      · rw [hrecords, entryOf?_push_result]
      · rw [hrecords, resultOf?_push_result, if_neg hne, Option.or_none]
    · obtain ⟨hkept, hentry, hresult⟩ := ih hrest (hset ▸ hs)
      rw [hrecords] at hentry hresult
      exact ⟨hkept, hentry, hresult⟩

theorem resultAfter_cons (seen : List (List Char)) (call : UInt64) (line : List Char)
    (lines : List (List Char)) :
    resultAfter seen call (line :: lines) =
      if isReturnFrom call line = true then
        some ((doublesOf seen).replace (String.ofList (field line 5)))
      else resultAfter (seen ++ [line]) call lines := by
  unfold resultAfter
  split
  · next h => simp [h]
  · next h => simp [h]

/-- Once a call is entered, its entry stays, and the next return from it is kept. -/
theorem foldl_after {call : UInt64} {e : Entry} {seen : List (List Char)}
    (hs : s.retained.contains call = true) (hdoubles : s.doubles = doublesOf seen)
    (hentry : entryOf? s.records call = some e) (lines : List (List Char)) :
    entryOf? (lines.foldl (readLine index filter) s).records call = some e ∧
      resultOf? (lines.foldl (readLine index filter) s).records call =
        (resultOf? s.records call).or (resultAfter seen call lines) := by
  induction lines generalizing s seen with
  | nil => exact ⟨hentry, by simp [resultAfter]⟩
  | cons line lines ih =>
    rw [List.foldl_cons, resultAfter_cons]
    obtain ⟨hobserved, hcases⟩ := readLine_cases index filter s line
    have hseen : (s.readLine index filter line).doubles = doublesOf (seen ++ [line]) := by
      rw [hobserved, hdoubles, doublesOf, doublesOf, List.foldl_append]
      rfl
    obtain ⟨call', hretained, hset, hrecords⟩ | ⟨call', hreturn, hknown, hset, hrecords⟩ |
      ⟨-, hreturn, hset, hrecords⟩ := hcases
    · have hno := hretained.not_isReturnFrom call
      have hs' : (s.readLine index filter line).retained.contains call = true := by
        rw [hset, contains_insert, hs, Bool.or_true]
      obtain ⟨hkept, hresult⟩ := ih hs' hseen (by rw [hrecords, entryOf?_push_entry, hentry]; rfl)
      refine ⟨hkept, ?_⟩
      rw [hresult, hrecords, resultOf?_push_entry, if_neg hno]
    · obtain ⟨hkept, hresult⟩ :=
        ih (hset ▸ hs) hseen (by rw [hrecords, entryOf?_push_result, hentry])
      refine ⟨hkept, ?_⟩
      rw [hresult, hrecords, resultOf?_push_result]
      by_cases hcall : call' = call
      · rw [if_pos hcall, if_pos (hcall ▸ hreturn), hdoubles, Option.or_assoc]
        rfl
      · have hno : ¬isReturnFrom call line = true := by
          intro h
          simp only [isReturnFrom, Bool.and_eq_true, beq_iff_eq] at h hreturn
          rw [hreturn.2] at h
          exact hcall (Option.some.inj h.2)
        rw [if_neg hcall, if_neg hno, Option.or_none]
    · have hno : ¬isReturnFrom call line = true := by
        intro h
        rw [hreturn call h] at hs
        cases hs
      obtain ⟨hkept, hresult⟩ := ih (hset ▸ hs) hseen (by rw [hrecords, hentry])
      refine ⟨hkept, ?_⟩
      rw [hresult, hrecords, if_neg hno]

theorem records_of_entered {before : List (List Char)} {call : UInt64}
    (hline : Retained index filter line call)
    (hbefore : ∀ l ∈ before, ¬Retained index filter l call) (after : List (List Char)) :
    entryOf? ((before ++ line :: after).foldl (readLine index filter) {}).records call =
        some (.ofLine (doublesOf (before ++ [line])) call line) ∧
      resultOf? ((before ++ line :: after).foldl (readLine index filter) {}).records call =
        resultAfter (before ++ [line]) call after := by
  rw [List.foldl_append, List.foldl_cons]
  obtain ⟨-, hentry, hresult⟩ := foldl_before hbefore (s := {}) rfl
  have hdoubles := doubles_foldl index filter before {}
  generalize before.foldl (readLine index filter) {} = s at hentry hresult hdoubles ⊢
  obtain ⟨hobserved, ⟨call', hretained, hset, hrecords⟩ | ⟨call', hreturn, -⟩ | ⟨hnot, -⟩⟩ :=
    readLine_cases index filter s line
  · obtain rfl : call' = call := Option.some.inj (hretained.number.symm.trans hline.number)
    have hseen : observeLine s.doubles line = doublesOf (before ++ [line]) := by
      rw [hdoubles, doublesOf, List.foldl_append]
      rfl
    have hentered : entryOf? (s.readLine index filter line).records call' =
        some (.ofLine (doublesOf (before ++ [line])) call' line) := by
      rw [hrecords, entryOf?_push_entry, hentry, hseen, Entry.ofLine, if_pos rfl]
      rfl
    obtain ⟨hkept, hreturned⟩ :=
      foldl_after (by rw [hset, contains_insert]; simp) (hobserved.trans hseen)
      hentered after
    refine ⟨hkept, hreturned.trans ?_⟩
    rw [hrecords, resultOf?_push_entry, hresult]
    rfl
  · exact absurd hreturn (hline.not_isReturnFrom call')
  · exact absurd hline (hnot call)

/-- The calls that the records of a trace make up are those that its lines tell. -/
theorem mem_calls_iff {lines : List (List Char)} {calls : List Call}
    (h : Correlated (entriesOf (lines.foldl (readLine index filter) {}).records.toList)
      (returnsOf (lines.foldl (readLine index filter) {}).records.toList) calls) (c : Call) :
    c ∈ calls ↔ Tells index filter lines c := by
  classical
  rw [h.mem_iff]
  constructor
  · rintro ⟨e, hentry, rfl⟩
    have hentry : entryOf? (lines.foldl (readLine index filter) {}).records e.call = some e :=
      hentry
    cases hfind : lines.find? fun l => decide (Retained index filter l e.call) with
    | none =>
      have hnot : ∀ l ∈ lines, ¬Retained index filter l e.call := by simpa using hfind
      rw [(foldl_before hnot (s := {}) rfl).2.1] at hentry
      cases hentry
    | some line =>
      obtain ⟨hline, before, after, rfl, hbefore⟩ := List.find?_eq_some_iff_append.mp hfind
      have hline := of_decide_eq_true hline
      have hbefore : ∀ l ∈ before, ¬Retained index filter l e.call := by simpa using hbefore
      obtain ⟨hfirst, hresult⟩ := records_of_entered hline hbefore after
      refine ⟨before, line, after, e.call, rfl, hline, hbefore, ?_⟩
      rw [← Option.some.inj (hentry.symm.trans hfirst), ← hresult]
      rfl
  · rintro ⟨before, line, after, call, rfl, hline, hbefore, rfl⟩
    obtain ⟨hfirst, hresult⟩ := records_of_entered hline hbefore after
    refine ⟨.ofLine (doublesOf (before ++ [line])) call line, hfirst, ?_⟩
    rw [← hresult]
    rfl

/-- A trace that is read into a new storage of either kind gives one call for each number with a
line that is kept, in increasing order: its entry is on the first such line, its result on the first
line after that one that returns from it. -/
theorem calls_of_trace (index : Index) (filter : PathFilter) (bytes : List UInt8) {t t' : FileTree}
    {kind : StorageKind} {storage : Storage} (hwf : t.WellFormed)
    (hcreate : Storage.create t kind = .ok (t', storage)) :
    ∃ u filled u' finished calls,
      storage.appendAll t' (ofBytes index filter {} bytes).records.toList = .ok (u, filled) ∧
      filled.finish u = .ok (u', finished) ∧ finished.calls u' = .ok calls ∧
      calls.Pairwise (fun a b => a.entry.call < b.entry.call) ∧
      ∀ c, c ∈ calls ↔ Tells index filter (bodyLines (Text.byteLines bytes)) c := by
  obtain ⟨u, filled, happend, hfilled⟩ :=
    (Storage.create_ok hwf hcreate).exists_appendAll (ofBytes index filter {} bytes).records.toList
  obtain ⟨u', finished, hfinish, hfinished⟩ := hfilled.exists_finish
  obtain ⟨calls, hcalls, hcorrelated⟩ := hfinished.exists_calls
  rw [List.nil_append, ofBytes_eq] at hcorrelated
  exact ⟨u, filled, u', finished, calls, happend, hfinish, hcalls, hcorrelated.ascending,
    mem_calls_iff hcorrelated⟩

def calcIndex : Index where
  functions := .ofList [(.of "App" "Calc" "add", ⟨"src/Calc.php"⟩)]

/-- A trace that returns from call 7 before it is entered, then enters it twice, the first time with
the declaration of a double and an object of it, and returns twice. -/
def crossedTrace : List String :=
  ["Version: 3", "File format: 4", "TRACE START",
   "1\t7\tR\t\t\tlong",
   "1\t7\t0\t0\t0\tApp\\Calc->add\t1\t\t/p/src/Calc.php\t9\t2\t" ++
     "'class Mock_A_1f extends \\\\App\\\\A \x7b'\tclass Mock_A_1f \x7b\x7d",
   "1\t7\t0\t0\t0\tApp\\Calc->add\t1\t\t/p/src/Calc.php\t9\t0",
   "1\t7\tR\t\t\tclass Mock_A_1f",
   "1\t7\tR\t\t\tNULL",
   "\t\t\t0.2\t9", "TRACE END"]

def bytesOf (lines : List String) : List UInt8 :=
  lines.flatMap fun line => line.toList.flatMap String.utf8EncodeChar ++ [10]

theorem calls_of_trace_crossed :
    (({} : FileTree).WellFormed ∧ Storage.create {} .memory = .ok ({}, .memory {})) ∧
      Tells calcIndex {} (bodyLines (Text.byteLines (bytesOf crossedTrace)))
        ⟨⟨7, "App\\Calc->add", true, "/p/src/Calc.php",
            ["'class Mock_A_1f extends \\\\App\\\\A \x7b'", "class App\\A"]⟩,
          [.scalar .string, .object "App" "A"], some (.object "App" "A")⟩ := by
  have hwf : ({} : FileTree).WellFormed := by decide +kernel
  have hcreate : Storage.create {} .memory = .ok ({}, .memory {}) := rfl
  refine ⟨⟨hwf, hcreate⟩, ?_⟩
  have hcalls : ((Storage.appendAll {} (.memory {})
      (ofBytes calcIndex {} {} (bytesOf crossedTrace)).records.toList).bind fun filled =>
        (filled.2.finish filled.1).bind fun finished => finished.2.calls finished.1) =
      .ok [⟨⟨7, "App\\Calc->add", true, "/p/src/Calc.php",
            ["'class Mock_A_1f extends \\\\App\\\\A \x7b'", "class App\\A"]⟩,
          [.scalar .string, .object "App" "A"], some (.object "App" "A")⟩] := by decide +kernel
  obtain ⟨u, filled, u', finished, calls, happend, hfinish, hfinished, -, hmem⟩ :=
    calls_of_trace calcIndex {} (bytesOf crossedTrace) hwf hcreate
  rw [happend] at hcalls
  simp only [Except.bind, hfinish, hfinished] at hcalls
  rw [← hmem, Except.ok.inj hcalls]
  exact List.mem_cons_self

end Reading
end SignatureInference.Trace
