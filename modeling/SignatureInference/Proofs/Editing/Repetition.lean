import SignatureInference.Proofs.Editing.Step

/-! # Instructions given twice

After a list of instructions was carried out, none of them finds a place any more: those that were
carried out find their type, and those that were refused are refused again. So the same list, given
a second time, changes nothing. This takes that no type completes the head of a function: such a
head can be the method that another instruction did not find before.
-/
namespace SignatureInference.Revision

open Text Source Placement

/-- An instruction whose file, if there is only one, is refused a type for it or has a slot for its
type. -/
def Prepared (ed : Editor) (i : Instruction) : Prop :=
  ∀ path, ed.fileOf i.className = .ok path → ∃ source, ed.source path = .ok source ∧
    ((∃ r, placeIn (mask source.toList) i = .ok (.error r)) ∨
      ∃ n, placeIn (mask source.toList) i = .ok (.ok n) ∧
        Slot source.toList n (insertedText i).toList)

def Idle (ed : Editor) (i : Instruction) : Prop :=
  ∀ path, ed.fileOf i.className = .ok path → ∃ source, ed.source path = .ok source ∧
    ∃ r, placeIn (mask source.toList) i = .ok (.error r)

variable {ed ed' : Editor}

section

variable {source : String} {n : Nat} {t : List Char} (hslot : Slot source.toList n t)
  (hstored : Editor.Stored ed source (String.ofList (insertAt n t source.toList)) ed')

include hslot hstored

/-- What is refused stays refused when a type is put in a slot. -/
theorem Idle.stored {i : Instruction} (h : Idle ed i) : Idle ed' i := by
  intro path hpath
  rw [Editor.fileOf, hstored.index_eq] at hpath
  obtain ⟨s, hs, r, hr⟩ := h path hpath
  rcases hstored.source_cases hs with hsame | ⟨rfl, hnew⟩
  · exact ⟨s, hsame, r, hr⟩
  · refine ⟨_, hnew, r, ?_⟩
    rw [String.toList_ofList, hslot.placeIn_insertAt, hr]
    rfl

/-- What has a slot still has one when a type is put in another slot. -/
theorem Prepared.stored {i : Instruction} (h : Prepared ed i) : Prepared ed' i := by
  intro path hpath
  rw [Editor.fileOf, hstored.index_eq] at hpath
  obtain ⟨s, hs, hplace⟩ := h path hpath
  rcases hstored.source_cases hs with hsame | ⟨rfl, hnew⟩
  · exact ⟨s, hsame, hplace⟩
  · refine ⟨_, hnew, ?_⟩
    rw [String.toList_ofList, hslot.placeIn_insertAt]
    rcases hplace with ⟨r, hr⟩ | ⟨m, hm, hslot'⟩
    · rw [hr]
      exact .inl ⟨r, rfl⟩
    · rw [hm]
      by_cases hmn : m = n
      · exact .inl ⟨alreadyTyped i.target, by simp [Except.map, settle, hmn]⟩
      · exact .inr ⟨shift n (byteLength t) m,
          by simp [Except.map, settle, hmn], hslot.insertAt hslot' hmn⟩

end

/-- One instruction: it finds no place afterwards, and no other one loses or gains by it. -/
theorem exists_apply_prepared (hed : ed.Sound) {i : Instruction} (h : Prepared ed i) :
    ∃ ed' outcome, ed.apply i = .ok (ed', outcome) ∧ ed'.Sound ∧ Idle ed' i ∧
      ∀ j, (Prepared ed j → Prepared ed' j) ∧ (Idle ed j → Idle ed' j) := by
  cases hfile : ed.fileOf i.className with
  | error r =>
    refine ⟨ed, .skipped r, by simp [Editor.apply, hfile], hed, fun path hpath => ?_,
      fun j => ⟨id, id⟩⟩
    rw [hfile] at hpath
    cases hpath
  | ok path =>
    obtain ⟨source, hsource, ⟨r, hr⟩ | ⟨n, hn, hslot⟩⟩ := h path hfile
    · refine ⟨ed, .skipped r, Editor.apply_refused hfile hsource hr, hed, fun path' hpath => ?_,
        fun j => ⟨id, id⟩⟩
      rw [hfile] at hpath
      cases hpath
      exact ⟨source, hsource, r, hr⟩
    · obtain ⟨ed', line, happly, hstored, hnew⟩ := Editor.exists_apply hfile hsource hed hn hslot
      refine ⟨ed', _, happly, hstored.sound, fun path' hpath => ?_,
        fun j => ⟨.stored hslot hstored, .stored hslot hstored⟩⟩
      rw [Editor.fileOf, hstored.index_eq] at hpath
      have hpath : ed.fileOf i.className = .ok path' := hpath
      rw [hfile] at hpath
      cases hpath
      refine ⟨_, hnew, alreadyTyped i.target, ?_⟩
      rw [String.toList_ofList, hslot.placeIn_insertAt, hn]
      simp [Except.map, settle]

/-- After a run none of its instructions finds a place. -/
theorem run_prepared (hed : ed.Sound) {instructions : List Instruction}
    (h : ∀ i ∈ instructions, Prepared ed i) :
    (run ed instructions).failure = none ∧
      (∀ i ∈ instructions, Idle (run ed instructions).editor i) ∧
      ∀ j, Idle ed j → Idle (run ed instructions).editor j := by
  induction instructions generalizing ed with
  | nil => exact ⟨rfl, by simp, fun j hj => hj⟩
  | cons i rest ih =>
    obtain ⟨ed', outcome, happly, hed', hidle, hothers⟩ :=
      exists_apply_prepared hed (h i List.mem_cons_self)
    obtain ⟨hfailure, hrest, hkept⟩ := ih hed'
      fun j hj => (hothers j).1 (h j (List.mem_cons_of_mem _ hj))
    rw [run, happly]
    refine ⟨hfailure, fun j hj => ?_, fun j hj => hkept j ((hothers j).2 hj)⟩
    rcases List.mem_cons.mp hj with rfl | hj
    · exact hkept j hidle
    · exact hrest j hj

theorem apply_idle {i : Instruction} (h : Idle ed i) :
    ∃ r, ed.apply i = .ok (ed, .skipped r) := by
  cases hfile : ed.fileOf i.className with
  | error r => exact ⟨r, by simp [Editor.apply, hfile]⟩
  | ok path =>
    obtain ⟨source, hsource, r, hr⟩ := h path hfile
    exact ⟨r, Editor.apply_refused hfile hsource hr⟩

theorem run_idle {instructions : List Instruction} (h : ∀ i ∈ instructions, Idle ed i) :
    (run ed instructions).failure = none ∧ (run ed instructions).editor = ed ∧
      (run ed instructions).results.map (·.1) = instructions ∧
      ∀ r ∈ (run ed instructions).results, ∃ reason, r.2 = .skipped reason := by
  induction instructions with
  | nil => exact ⟨rfl, rfl, rfl, by simp [run]⟩
  | cons i rest ih =>
    obtain ⟨reason, happly⟩ := apply_idle (h i List.mem_cons_self)
    obtain ⟨hfailure, heditor, hresults, hskipped⟩ := ih fun j hj => h j (List.mem_cons_of_mem _ hj)
    rw [run, happly]
    refine ⟨hfailure, heditor, by simpa using hresults, fun r hr => ?_⟩
    rcases List.mem_cons.mp hr with rfl | hr
    · exact ⟨reason, rfl⟩
    · exact hskipped r hr

/-- The search for the place of an instruction does not fail, and the place that it finds, if any,
is fit for the type and makes no head of a function with it. -/
def Admits (source : String) (i : Instruction) : Prop :=
  (∃ found, locate source i = .ok found) ∧
    ∀ e, locate source i = .ok (.ok e) →
      Fits source.toList i e.start ∧ AddsNoHead source.toList i e.start

instance (source : String) (i : Instruction) : Decidable (Admits source i) :=
  match h : locate source i with
  | .error _ => .isFalse (by simp [Admits, h])
  | .ok (.error _) => .isTrue (by simp [Admits, h])
  | .ok (.ok e) =>
    decidable_of_iff (Fits source.toList i e.start ∧ AddsNoHead source.toList i e.start)
      (by simp [Admits, h])

theorem prepared_of_admits {i : Instruction}
    (h : ∀ path, ed.fileOf i.className = .ok path → ∃ source, ed.source path = .ok source ∧
      (mask? source.toList).isSome = true ∧ Admits source i) : Prepared ed i := by
  intro path hpath
  obtain ⟨source, hsource, hmask, hadmits⟩ := h path hpath
  obtain ⟨masked, hmasked⟩ := Option.isSome_iff_exists.mp hmask
  have hmask_eq : mask source.toList = masked := by rw [mask, hmasked]; rfl
  refine ⟨source, hsource, ?_⟩
  obtain ⟨⟨found, hfound⟩, hfits⟩ := hadmits
  rw [locate_eq] at hfound hfits
  cases hplace : placeIn (mask source.toList) i with
  | error err =>
    rw [hplace] at hfound
    cases hfound
  | ok place =>
    cases place with
    | error r => exact .inl ⟨r, rfl⟩
    | ok n =>
      rw [hplace] at hfits
      obtain ⟨hfit, hhead⟩ := hfits _ rfl
      rw [hmask_eq] at hplace
      exact .inr ⟨n, rfl, slot_of_placeIn hmasked hplace hfit hhead⟩

/-- A list of instructions given a second time is refused as a whole, and nothing changes. -/
theorem run_again (hed : ed.Sound) {instructions : List Instruction}
    (h : ∀ i ∈ instructions, ∀ path, ed.fileOf i.className = .ok path →
      ∃ source, ed.source path = .ok source ∧ (mask? source.toList).isSome = true ∧
      Admits source i) :
    (run ed instructions).failure = none ∧
      (run (run ed instructions).editor instructions).failure = none ∧
      (run (run ed instructions).editor instructions).results.map (·.1) = instructions ∧
      (∀ r ∈ (run (run ed instructions).editor instructions).results, ∃ reason, r.2 =
        .skipped reason) ∧
      (run (run ed instructions).editor instructions).editor = (run ed instructions).editor := by
  obtain ⟨hfailure, hidle, -⟩ := run_prepared hed fun i hi => prepared_of_admits (h i hi)
  obtain ⟨hfailure', heditor, hresults, hskipped⟩ := run_idle hidle
  exact ⟨hfailure, hfailure', hresults, hskipped, heditor⟩

def typedSource : String :=
  "<?php class A \x7b function f($x, int $y) \x7b\x7d \x7d " ++
    "interface B \x7b function f(&...$z); \x7d"

/-- Among these, two are for the same place, and five are refused: for a type that is there already,
a parameter, a method, a class and a file that are not there. -/
def typedInstructions : List Instruction :=
  [⟨⟨"A"⟩, "f", .parameter 0, ⟨"\\App\\X", true⟩⟩, ⟨⟨"A"⟩, "F", .parameter 0, ⟨"int", false⟩⟩,
   ⟨⟨"A"⟩, "f", .parameter 1, ⟨"bool", false⟩⟩, ⟨⟨"A"⟩, "f", .parameter 2, ⟨"bool", false⟩⟩,
   ⟨⟨"B"⟩, "g", .result, ⟨"array", false⟩⟩, ⟨⟨"B"⟩, "f", .result, ⟨"array", false⟩⟩,
   ⟨⟨"B"⟩, "f", .parameter 0, ⟨"callable", false⟩⟩, ⟨⟨"C"⟩, "f", .result, ⟨"int", false⟩⟩]

theorem run_again_typed :
    ((Editor.ofSource typedSource).Sound ∧ (mask? typedSource.toList).isSome = true ∧
      ∀ i ∈ typedInstructions, Admits typedSource i) ∧
    (run (Editor.ofSource typedSource) typedInstructions).applied = 3 ∧
    (run (run (Editor.ofSource typedSource) typedInstructions).editor typedInstructions).editor =
      (run (Editor.ofSource typedSource) typedInstructions).editor := by
  have hsound : (Editor.ofSource typedSource).Sound := by decide +kernel
  have hmask : (mask? typedSource.toList).isSome = true := by decide +kernel
  have hadmits : ∀ i ∈ typedInstructions, Admits typedSource i := by decide +kernel
  have happlied : (run (Editor.ofSource typedSource) typedInstructions).applied = 3 := by
    decide +kernel
  refine ⟨⟨hsound, hmask, hadmits⟩, happlied, ?_⟩
  refine (run_again hsound fun i hi path hpath => ⟨typedSource, ?_, hmask, hadmits i hi⟩).2.2.2.2
  have hfile : ∀ i ∈ typedInstructions,
      ∀ p ∈ ((Editor.ofSource typedSource).fileOf i.className).toOption,
      (Editor.ofSource typedSource).source p = .ok typedSource := by decide +kernel
  exact hfile i hi path (by rw [hpath]; rfl)

/-- A source where the second parameter of a method of `A` stands inside `B`, in front of a name and
a parenthesis that are no method of `B`. What stands in front of the name and behind the parentheses
is given. -/
def headlessWith (type result : String) : String :=
  "<?php class A \x7b function k( ] class B \x7b , " ++ type ++ "& g(1)" ++ result ++
    " ; , \x7d ) \x7b\x7d \x7d"

def headlessSource : String := headlessWith "" ""

def headlessInstructions : List Instruction :=
  [⟨⟨"B"⟩, "g", .result, ⟨"int", false⟩⟩, ⟨⟨"A"⟩, "k", .parameter 1, ⟨"\\function", false⟩⟩]

/-- Where a type completes the head of a function, a second run can find the method that the first
run did not find. -/
theorem run_again_completes :
    ((Editor.ofSource headlessSource).Sound ∧ (mask? headlessSource.toList).isSome = true ∧
      headlessInstructions.map (locate headlessSource) =
        [.ok (.error .noMethod), .ok (.ok (.insertion 42 "\\function "))] ∧
      Fits headlessSource.toList ⟨⟨"A"⟩, "k", .parameter 1, ⟨"\\function", false⟩⟩ 42) ∧
    (run (Editor.ofSource headlessSource) headlessInstructions).failure = none ∧
    (run (run (Editor.ofSource headlessSource) headlessInstructions).editor
        headlessInstructions).results.map (·.2) =
      [.applied ⟨"src/A.php"⟩ 1 (headlessWith "\\function " "")
        (headlessWith "\\function " ": int"),
       .skipped .parameterHasType] := by
  decide +kernel

end SignatureInference.Revision
