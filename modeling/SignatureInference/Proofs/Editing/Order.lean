import Mathlib.Data.List.Perm.Basic
import SignatureInference.Proofs.Editing.Step

/-! # Instructions in any order

Instructions for one file that find different places in it can be carried out one after another in
any order. All of them are carried out, and the file is then the one with all insertions made at
once. This takes that no type completes the head of a function: with such a type the order can
matter.
-/
namespace SignatureInference.Revision

open Text Source Placement

theorem locate_eq_ok {source : String} {i : Instruction} {e : Edit}
    (h : locate source i = .ok (.ok e)) :
    placeIn (mask source.toList) i = .ok (.ok e.start) ∧
      e = .insertion e.start (insertedText i) := by
  rw [locate_eq] at h
  cases hplace : placeIn (mask source.toList) i with
  | error err =>
    rw [hplace] at h
    cases h
  | ok found =>
    cases found with
    | error r =>
      rw [hplace] at h
      cases h
    | ok n =>
      rw [hplace] at h
      cases h
      exact ⟨rfl, rfl⟩

theorem run_cons_of_apply {ed ed' : Editor} {i : Instruction} {outcome : EditOutcome}
    (h : ed.apply i = .ok (ed', outcome)) (rest : List Instruction) :
    run ed (i :: rest) =
      { run ed' rest with results := (i, outcome) :: (run ed' rest).results } := by
  rw [run, h]

/-- Instructions with slots at different places, where `move` says where the places of the first
text have gone so far. -/
theorem run_slots {path : Path} {jobs : List (Instruction × Edit)} {move : Nat → Nat} {ed : Editor}
    {source : String} (hed : ed.Sound) (hsource : ed.source path = .ok source)
    (hfile : ∀ j ∈ jobs, ed.fileOf j.1.className = .ok path)
    (htext : ∀ j ∈ jobs, j.2.replacement = insertedText j.1)
    (hplace : ∀ j ∈ jobs, placeIn (mask source.toList) j.1 = .ok (.ok (move j.2.start)))
    (hslot : ∀ j ∈ jobs, Slot source.toList (move j.2.start) (insertedText j.1).toList)
    (hdistinct : jobs.Pairwise fun j k => move j.2.start ≠ move k.2.start) :
    (run ed (jobs.map (·.1))).failure = none ∧
      (run ed (jobs.map (·.1))).results.map (·.1) = jobs.map (·.1) ∧
      (∀ r ∈ (run ed (jobs.map (·.1))).results, ∃ line before after,
        r.2 = .applied path line before after) ∧
      (run ed (jobs.map (·.1))).editor.source path =
        .ok (String.ofList (Edit.insertFrom move source.toList (jobs.map (·.2)))) := by
  induction jobs generalizing move ed source with
  | nil => exact ⟨rfl, rfl, by simp [run], by simpa [run, Edit.insertFrom] using hsource⟩
  | cons j jobs ih =>
    rw [List.pairwise_cons] at hdistinct
    have hj := hslot j List.mem_cons_self
    obtain ⟨ed', line, happly, hstored, hsource'⟩ := Editor.exists_apply
      (hfile j List.mem_cons_self) hsource hed (hplace j List.mem_cons_self) hj
    have hgain : byteLength (insertedText j.1).toList = j.2.gain := by
      rw [Edit.gain, htext j List.mem_cons_self]
    have hfile' : ∀ k ∈ jobs, ed'.fileOf k.1.className = .ok path := fun k hk => by
      rw [← hfile k (List.mem_cons_of_mem _ hk), Editor.fileOf, Editor.fileOf, hstored.index_eq]
    have hplace' : ∀ k ∈ jobs,
        placeIn (mask (insertAt (move j.2.start) (insertedText j.1).toList source.toList)) k.1 =
          .ok (.ok (shift (move j.2.start) j.2.gain (move k.2.start))) := fun k hk => by
      rw [hj.placeIn_insertAt, hplace k (List.mem_cons_of_mem _ hk)]
      simp [Except.map, settle, (hdistinct.1 k hk).symm, hgain]
    have hslot' : ∀ k ∈ jobs,
        Slot (insertAt (move j.2.start) (insertedText j.1).toList source.toList)
          (shift (move j.2.start) j.2.gain (move k.2.start)) (insertedText k.1).toList :=
            fun k hk => by
      rw [← hgain]
      exact hj.insertAt (hslot k (List.mem_cons_of_mem _ hk)) (hdistinct.1 k hk).symm
    obtain ⟨hfailure, hresults, happlied, hfinal⟩ :=
      @ih (shift (move j.2.start) j.2.gain ∘ move) ed' _ hstored.sound hsource' hfile'
        (fun k hk => htext k (List.mem_cons_of_mem _ hk)) (by simpa using hplace')
          (by simpa using hslot')
        (hdistinct.2.imp fun hne => shift_ne_shift hne)
    rw [List.map_cons, run_cons_of_apply happly]
    refine ⟨hfailure, by simpa using hresults, fun r hr => ?_, ?_⟩
    · rcases List.mem_cons.mp hr with rfl | hr
      · exact ⟨_, _, _, rfl⟩
      · exact happlied r hr
    · rw [List.map_cons, Edit.insertFrom, htext j List.mem_cons_self]
      simpa using hfinal

/-- Instructions for one file that find different places in it are all carried out, in any order,
and the file is then the one with all insertions made at once. -/
theorem run_eq_applyAll {ed : Editor} (hed : ed.Sound) {path : Path} {source : String}
    (hsource : ed.source path = .ok source) (hmask : (mask? source.toList).isSome = true)
    {jobs : List (Instruction × Edit)} (hfile : ∀ j ∈ jobs, ed.fileOf j.1.className = .ok path)
    (hlocate : ∀ j ∈ jobs, locate source j.1 = .ok (.ok j.2))
    (hdistinct : (jobs.map (·.2.start)).Nodup)
    (hfits : ∀ j ∈ jobs, Fits source.toList j.1 j.2.start)
    (hhead : ∀ j ∈ jobs, AddsNoHead source.toList j.1 j.2.start) {order : List Instruction}
    (horder : order.Perm (jobs.map (·.1))) :
    (run ed order).failure = none ∧ (run ed order).results.map (·.1) = order ∧
      (∀ r ∈ (run ed order).results, ∃ line before after, r.2 = .applied path line before after) ∧
      ∃ text, Edit.applyAll source (jobs.map (·.2)) = .ok text ∧
        (run ed order).editor.source path = .ok text := by
  obtain ⟨masked, hmasked⟩ := Option.isSome_iff_exists.mp hmask
  have hmask_eq : mask source.toList = masked := by rw [mask, hmasked]; rfl
  have hslot : ∀ j ∈ jobs, Slot source.toList j.2.start (insertedText j.1).toList := fun j hj =>
    slot_of_placeIn hmasked (hmask_eq ▸ (locate_eq_ok (hlocate j hj)).1) (hfits j hj) (hhead j hj)
  have hedit : ∀ j ∈ jobs, j.2.IsInsertion ∧ j.2.replacement = insertedText j.1 := fun j hj => by
    rw [(locate_eq_ok (hlocate j hj)).2]
    exact ⟨rfl, rfl⟩
  have hne : jobs.Pairwise fun j k => j.2.start ≠ k.2.start := by
    rwa [List.Nodup, List.pairwise_map] at hdistinct
  -- the order is that of the instructions of the same jobs
  obtain ⟨jobs', rfl, hperm⟩ : ∃ jobs' : List (Instruction × Edit),
      order = jobs'.map (·.1) ∧ jobs'.Perm jobs :=
    (congrFun (congrFun (List.eq_map_comp_perm Prod.fst) order) jobs).mpr horder
  have hmem : ∀ j ∈ jobs', j ∈ jobs := fun j hj => hperm.mem_iff.mp hj
  obtain ⟨hfailure, hresults, happlied, hfinal⟩ := @run_slots path jobs' id ed source hed hsource
    (fun j hj => hfile j (hmem j hj)) (fun j hj => (hedit j (hmem j hj)).2)
    (fun j hj => (locate_eq_ok (hlocate j (hmem j hj))).1) (fun j hj => hslot j (hmem j hj))
    (hperm.symm.pairwise hne fun h => h.symm)
  refine ⟨hfailure, hresults, happlied, _, ?_, hfinal⟩
  have hboundary : ∀ e ∈ jobs.map (·.2), isBoundary source.toList e.start = true := by
    simp only [List.mem_map, forall_exists_index, and_imp, forall_apply_eq_imp_iff₂]
    exact fun j hj => (hslot j hj).isBoundary
  have hpairwise : (jobs.map (·.2)).Pairwise fun e f => e.start ≠ f.start :=
    List.pairwise_map.mpr hne
  rw [Edit.applyAll_insertions ?_ hboundary hpairwise,
    Edit.insertFrom_perm (hperm.symm.map (·.2)) hboundary hpairwise]
  simp only [List.mem_map, forall_exists_index, and_imp, forall_apply_eq_imp_iff₂]
  exact fun j hj => (hedit j hj).1

/-- A method with a promoted parameter, a reference and no types. -/
def plainSource : String :=
  "<?php class A \x7b function f(private $x, /* a */ &$y) \x7b return '$x, '; \x7d \x7d"

def plainJobs : List (Instruction × Edit) :=
  [(⟨⟨"A"⟩, "f", .parameter 0, ⟨"int", true⟩⟩, .insertion 35 "?int "),
   (⟨⟨"A"⟩, "F", .parameter 1, ⟨"\\App\\B", false⟩⟩, .insertion 47 "\\App\\B "),
   (⟨⟨"A"⟩, "f", .result, ⟨"string", false⟩⟩, .insertion 51 ": string")]

theorem run_eq_applyAll_plain :
    ((Editor.ofSource plainSource).Sound ∧ (mask? plainSource.toList).isSome = true ∧
      ∀ j ∈ plainJobs, locate plainSource j.1 = .ok (.ok j.2)) ∧
    ∃ text, Edit.applyAll plainSource (plainJobs.map (·.2)) = .ok text ∧
      (run (Editor.ofSource plainSource) (plainJobs.map (·.1)).reverse).editor.source
        ⟨"src/A.php"⟩ = .ok text := by
  have hlocate : ∀ j ∈ plainJobs, locate plainSource j.1 = .ok (.ok j.2) := by decide +kernel
  refine ⟨⟨by decide +kernel, by decide +kernel, hlocate⟩, ?_⟩
  exact (run_eq_applyAll (by decide +kernel) (by decide +kernel) (by decide +kernel)
    (by decide +kernel) hlocate (by decide +kernel) (by decide +kernel) (by decide +kernel)
    (List.reverse_perm _)).2.2.2

/-- A source where the second parameter of a method of `A` stands inside `B`, in front of a name and
a parenthesis. The types of that parameter and of the parameter of a method of `B` are given. -/
def nestedWith (type other : String) : String :=
  "<?php class A \x7b function k( ] class B \x7b , " ++ type ++ "& g(1) , " ++
    "function g(" ++ other ++ "$w) \x7b\x7d \x7d ) \x7b\x7d \x7d"

def nestedSource : String := nestedWith "" ""

def nestedJobs : List (Instruction × Edit) :=
  [(⟨⟨"A"⟩, "k", .parameter 1, ⟨"\\function", false⟩⟩, .insertion 42 "\\function "),
   (⟨⟨"B"⟩, "g", .parameter 0, ⟨"int", false⟩⟩, .insertion 62 "int ")]

/-- The order matters where a type completes the head of a function: the method of `B` that is found
then is another one. -/
theorem run_order_matters :
    ((Editor.ofSource nestedSource).Sound ∧ (mask? nestedSource.toList).isSome = true ∧
      (∀ j ∈ nestedJobs, (Editor.ofSource nestedSource).fileOf j.1.className = .ok ⟨"src/A.php"⟩ ∧
        locate nestedSource j.1 = .ok (.ok j.2) ∧ Fits nestedSource.toList j.1 j.2.start) ∧
      (nestedJobs.map (·.2.start)).Nodup) ∧
    (run (Editor.ofSource nestedSource) (nestedJobs.map (·.1))).results.map (·.2) =
      [.applied ⟨"src/A.php"⟩ 1 nestedSource (nestedWith "\\function " ""),
       .skipped .parameterHasType] ∧
    (run (Editor.ofSource nestedSource) (nestedJobs.map (·.1)).reverse).editor.source
      ⟨"src/A.php"⟩ = .ok (nestedWith "\\function " "int ") := by
  decide +kernel

end SignatureInference.Revision
