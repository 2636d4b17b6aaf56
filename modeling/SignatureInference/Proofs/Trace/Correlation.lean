import Mathlib.Data.List.Sort
import SignatureInference.Proofs.SortedMap
import SignatureInference.Trace.Storage

/-! # Entries and returns of calls

The first entry of each call is what remains of a list of entries, whether they are entered into a
map one after another or sorted and thinned out.
-/
namespace SignatureInference.Trace

/-- The calls of records: one for each number among the entries, in increasing order, with the first
entry and the first return of that number. -/
structure Correlated (entries : List Entry) (returns : List Return) (calls : List Call) : Prop where
  ascending : calls.Pairwise fun a b => a.entry.call < b.entry.call
  mem_iff : ∀ c, c ∈ calls ↔ ∃ e, entries.find? (·.call = e.call) = some e ∧
    c = Call.of e ((returns.find? (·.call = e.call)).map (·.value))

theorem Correlated.unique {entries : List Entry} {returns : List Return} {calls others : List Call}
    (h : Correlated entries returns calls) (h' : Correlated entries returns others) :
    calls = others := by
  have hnodup {cs : List Call} (hcs : Correlated entries returns cs) : cs.Nodup := by
    refine List.Pairwise.imp (fun {a b} hlt => ?_) hcs.ascending
    rintro rfl
    exact UInt64.lt_irrefl _ hlt
  have hperm : calls.Perm others :=
    (List.perm_ext_iff_of_nodup (hnodup h) (hnodup h')).mpr fun c => by rw [h.mem_iff, h'.mem_iff]
  refine hperm.eq_of_pairwise (fun a b _ _ hab hba => ?_) h.ascending h'.ascending
  exact absurd (UInt64.lt_trans hab hba) (UInt64.lt_irrefl _)

structure Firsts (entries firsts : List Entry) : Prop where
  ascending : firsts.Pairwise fun a b => a.call < b.call
  mem_iff : ∀ e, e ∈ firsts ↔ entries.find? (·.call = e.call) = some e

variable {entries firsts : List Entry}

theorem Firsts.correlated (h : Firsts entries firsts) (returns : List Return) :
    Correlated entries returns
      (firsts.map fun e => Call.of e ((returns.find? (·.call = e.call)).map (·.value))) where
  ascending := List.pairwise_map.mpr h.ascending
  mem_iff c := by
    rw [List.mem_map]
    constructor
    · rintro ⟨e, he, rfl⟩
      exact ⟨e, (h.mem_iff e).mp he, rfl⟩
    · rintro ⟨e, he, rfl⟩
      exact ⟨e, (h.mem_iff e).mpr he, rfl⟩

/-! ## In memory -/

namespace MemoryStorage

def ofRecords (entries : List Entry) (returns : List Return) : MemoryStorage where
  entries := entries.foldl (fun m e => m.insertIfNew e.call e) ∅
  results := returns.foldl (fun m r => m.insertIfNew r.call r.value) ∅

theorem get?_entries (entries : List Entry) (returns : List Return) (k : UInt64) :
    (ofRecords entries returns).entries.get? k = entries.find? (·.call = k) := by
  have h := SortedMap.get?_foldl_insertIfNew Entry.call id entries ∅ k
  rw [SortedMap.get?_empty, Option.none_or, Option.map_id_fun] at h
  exact h

theorem get?_results (entries : List Entry) (returns : List Return) (k : UInt64) :
    (ofRecords entries returns).results.get? k = (returns.find? (·.call = k)).map (·.value) := by
  have h := SortedMap.get?_foldl_insertIfNew Return.call Return.value returns ∅ k
  rw [SortedMap.get?_empty, Option.none_or] at h
  exact h

theorem firsts_values (entries : List Entry) (returns : List Return) :
    Firsts entries (ofRecords entries returns).entries.values := by
  have hkey {k : UInt64} {e : Entry} (h : (k, e) ∈ (ofRecords entries returns).entries.entries) :
      entries.find? (·.call = k) = some e ∧ e.call = k := by
    have hfind := (SortedMap.mem_entries_iff _).mp h
    rw [get?_entries] at hfind
    have hcall := List.find?_some hfind
    exact ⟨hfind, of_decide_eq_true hcall⟩
  constructor
  · refine List.pairwise_map.mpr ((ofRecords entries returns).entries.sorted.imp_of_mem ?_)
    rintro ⟨k, e⟩ ⟨l, f⟩ he hf hlt
    have hlt : k < l := Std.compare_eq_lt.mp hlt
    rw [(hkey he).2, (hkey hf).2]
    exact hlt
  · intro e
    rw [SortedMap.values, List.mem_map]
    constructor
    · rintro ⟨⟨k, e'⟩, he, rfl⟩
      obtain ⟨hfind, rfl⟩ := hkey he
      exact hfind
    · intro hfind
      refine ⟨(e.call, e), (SortedMap.mem_entries_iff _).mpr ?_, rfl⟩
      rw [get?_entries, hfind]

theorem correlated_calls (entries : List Entry) (returns : List Return) :
    Correlated entries returns (ofRecords entries returns).calls := by
  have hcalls : (ofRecords entries returns).calls = (ofRecords entries returns).entries.values.map
      fun e => Call.of e ((returns.find? (·.call = e.call)).map (·.value)) := by
    refine List.map_congr_left fun e _ => ?_
    rw [get?_results]
  rw [hcalls]
  exact (firsts_values entries returns).correlated returns

end MemoryStorage

/-! ## In files -/

namespace FileStorage

theorem firstOfRuns_cons {e : Entry} {es : List Entry} (hle : ∀ f ∈ es, e.call ≤ f.call)
    (hfirsts : Firsts es (firstOfRuns es)) :
    firstOfRuns (e :: es) = e :: (firstOfRuns es).filter (e.call < ·.call) := by
  have hmem : ∀ f ∈ firstOfRuns es, e.call ≤ f.call := fun f hf =>
    hle f (List.mem_of_find?_eq_some ((hfirsts.mem_iff f).mp hf))
  have hascending := hfirsts.ascending
  conv_lhs => unfold firstOfRuns
  cases hruns : firstOfRuns es with
  | nil => rfl
  | cons f fs =>
    rw [hruns] at hmem hascending
    obtain ⟨hlt, -⟩ := List.pairwise_cons.mp hascending
    have hf := hmem f List.mem_cons_self
    have hfs : fs.filter (e.call < ·.call) = fs := by
      refine List.filter_eq_self.mpr fun g hg => decide_eq_true ?_
      exact UInt64.lt_of_le_of_lt hf (hlt g hg)
    simp only
    by_cases heq : f.call = e.call
    · rw [if_pos heq, List.filter_cons_of_neg (by simp [heq]), hfs]
    · have hlt : e.call < f.call := UInt64.lt_of_le_of_ne hf (Ne.symm heq)
      rw [if_neg heq, List.filter_cons_of_pos (by simpa using hlt), hfs]

theorem firsts_firstOfRuns {es : List Entry} (h : es.Pairwise fun a b => a.call ≤ b.call) :
    Firsts es (firstOfRuns es) := by
  induction es with
  | nil => exact ⟨.nil, fun e => by simp [firstOfRuns]⟩
  | cons e es ih =>
    obtain ⟨hle, hes⟩ := List.pairwise_cons.mp h
    have hfirsts := ih hes
    rw [firstOfRuns_cons hle hfirsts]
    constructor
    · refine List.pairwise_cons.mpr ⟨fun f hf => ?_, hfirsts.ascending.filter _⟩
      exact of_decide_eq_true (List.mem_filter.mp hf).2
    · intro f
      rw [List.mem_cons, List.mem_filter, hfirsts.mem_iff, decide_eq_true_eq]
      by_cases hcall : e.call = f.call
      · rw [List.find?_cons_of_pos (by simpa using hcall), Option.some_inj]
        constructor
        · rintro (rfl | ⟨-, hlt⟩)
          · rfl
          · exact absurd (hcall ▸ hlt) (UInt64.lt_irrefl _)
        · exact fun h => .inl h.symm
      · rw [List.find?_cons_of_neg (by simpa using hcall)]
        constructor
        · rintro (rfl | ⟨hfind, -⟩)
          · exact absurd rfl hcall
          · exact hfind
        · intro hfind
          exact .inr ⟨hfind, UInt64.lt_of_le_of_ne (hle f (List.mem_of_find?_eq_some hfind)) hcall⟩

theorem byCall_trans (a b c : Entry) (hab : decide (a.call ≤ b.call) = true)
    (hbc : decide (b.call ≤ c.call) = true) : decide (a.call ≤ c.call) = true :=
  decide_eq_true (UInt64.le_trans (of_decide_eq_true hab) (of_decide_eq_true hbc))

theorem byCall_total (a b : Entry) :
    (decide (a.call ≤ b.call) || decide (b.call ≤ a.call)) = true := by
  simpa using UInt64.le_total a.call b.call

/-- Sorting by calls keeps the order of the entries of each call. -/
theorem filter_mergeSort (entries : List Entry) (k : UInt64) :
    (entries.mergeSort fun a b => a.call ≤ b.call).filter (·.call = k) =
      entries.filter (·.call = k) := by
  have hsame : (entries.filter (·.call = k)).Pairwise fun a b =>
    decide (a.call ≤ b.call) = true := by
    refine List.pairwise_of_forall_mem_list ?_
    intro a ha b hb
    have ha := of_decide_eq_true (List.mem_filter.mp ha).2
    have hb := of_decide_eq_true (List.mem_filter.mp hb).2
    exact decide_eq_true (ha.trans hb.symm ▸ UInt64.le_refl _)
  have hsublist :=
    (List.sublist_mergeSort byCall_trans byCall_total hsame List.filter_sublist).filter (·.call = k)
  rw [List.filter_filter] at hsublist
  simp only [Bool.and_self] at hsublist
  refine (hsublist.eq_of_length ?_).symm
  exact ((List.mergeSort_perm entries _).filter _).length_eq.symm

theorem firsts_mergeSort (entries : List Entry) :
    Firsts entries (firstOfRuns (entries.mergeSort fun a b => a.call ≤ b.call)) := by
  have hsorted : (entries.mergeSort fun a b => a.call ≤ b.call).Pairwise fun a b =>
    a.call ≤ b.call :=
    (List.pairwise_mergeSort byCall_trans byCall_total entries).imp of_decide_eq_true
  have hfirsts := firsts_firstOfRuns hsorted
  refine ⟨hfirsts.ascending, fun e => ?_⟩
  rw [hfirsts.mem_iff, ← List.head?_filter, ← List.head?_filter, filter_mergeSort]

end FileStorage

end SignatureInference.Trace
