import Mathlib.Data.List.Sort
import SignatureInference.Proofs.Edits

/-! # Edits made at once

Edits are made from the last to the first, one after another, on a text that changes on the way. The
outcome is that of making them all at once: the parts of the source between them, with the
replacements in their order. Edits that cannot be made so are refused, with the fault of the last of
them that has one.
-/
namespace SignatureInference.Edit

open Text

/-! ### The order of edits -/

/-- Of two edits with their positions in a list, the first goes to an earlier place, or to the same
place and stands earlier in the list. -/
def Precedes (e f : Edit × Nat) : Prop := e.1.start < f.1.start ∨ e.1.start = f.1.start ∧ e.2 < f.2

/-- Edits in the order of their places, those at one place in the order in which they are given. -/
def InOrder (edits ordered : List Edit) : Prop :=
  ∃ numbered : List (Edit × Nat), numbered.Perm edits.zipIdx ∧ numbered.Pairwise Precedes ∧
    ordered = numbered.map (·.1)

def byPlace (edits : List Edit) : List Edit := edits.mergeSort fun a b => a.start ≤ b.start

theorem fromTheEnd_eq (edits : List Edit) : fromTheEnd edits = (byPlace edits).reverse := rfl

theorem precedes_of_zipIdxLE {e f : Edit × Nat} (hne : e.2 ≠ f.2)
    (h : List.zipIdxLE (fun a b : Edit => a.start ≤ b.start) e f = true) : Precedes e f := by
  simp only [List.zipIdxLE, decide_eq_true_eq] at h
  unfold Precedes
  split at h
  · split at h
    · have := of_decide_eq_true h
      omega
    · omega
  · cases h

theorem pairwise_snd_ne_zipIdx (edits : List Edit) :
    edits.zipIdx.Pairwise fun e f : Edit × Nat => e.2 ≠ f.2 := by
  have hnodup : (edits.zipIdx.map (·.2)).Nodup := by
    rw [List.zipIdx_map_snd]
    exact List.nodup_range'
  exact List.pairwise_map.mp hnodup

theorem inOrder_byPlace (edits : List Edit) : InOrder edits (byPlace edits) := by
  have hperm := List.mergeSort_perm edits.zipIdx (List.zipIdxLE fun a b => a.start ≤ b.start)
  have hsorted := @List.pairwise_mergeSort _ (List.zipIdxLE fun a b : Edit => a.start ≤ b.start)
    (List.zipIdxLE_trans fun a b c hab hbc => by
      simp only [decide_eq_true_eq] at hab hbc ⊢
      omega)
    (List.zipIdxLE_total fun a b => by
      simp only [Bool.or_eq_true, decide_eq_true_eq]
      omega) edits.zipIdx
  have hdistinct := hperm.symm.pairwise (pairwise_snd_ne_zipIdx edits) fun h => h.symm
  refine ⟨_, hperm, (hsorted.and hdistinct).imp fun h => precedes_of_zipIdxLE h.2 h.1, ?_⟩
  exact List.mergeSort_zipIdx.symm

/-- There is one such order only. -/
theorem inOrder_iff {edits ordered : List Edit} :
    InOrder edits ordered ↔ ordered = byPlace edits := by
  constructor
  · rintro ⟨numbered, hperm, hsorted, rfl⟩
    obtain ⟨numbered', hperm', hsorted', heq⟩ := inOrder_byPlace edits
    have hsame : numbered = numbered' := by
      refine List.Perm.eq_of_pairwise ?_ hsorted hsorted' (hperm.trans hperm'.symm)
      intro e f _ _ hef hfe
      unfold Precedes at hef hfe
      omega
    rw [heq, hsame]
  · rintro rfl
    exact inOrder_byPlace edits

/-! ### Faults -/

/-- The range of an edit lies in the source and between characters. -/
structure Fits (source : List Char) (e : Edit) : Prop where
  start_le : e.start ≤ e.stop
  stop_le : e.stop ≤ byteLength source
  boundary_start : isBoundary source e.start = true
  boundary_stop : isBoundary source e.stop = true

inductive Fault (source : List Char) (next : Option Edit) (e : Edit) : EditError → Prop
  | outOfBounds (hbounds : ¬(e.start ≤ e.stop ∧ e.stop ≤ byteLength source)) :
      Fault source next e (.outOfBounds e.start e.stop (byteLength source))
  | notBoundary (hbounds : e.start ≤ e.stop ∧ e.stop ≤ byteLength source)
      (hboundary : ¬(isBoundary source e.start = true ∧ isBoundary source e.stop = true)) :
      Fault source next e (.notBoundary e.start e.stop)
  | overlapping (hfits : e.Fits source) {f : Edit} (hnext : f ∈ next) (hover : f.start < e.stop) :
      Fault source next e (.overlapping e.start)

/-- Edits that fit, each of which ends where the next one starts or before that. -/
def Applicable (source : List Char) (es : List Edit) : Prop :=
  (∀ e ∈ es, e.Fits source) ∧ es.IsChain fun e f => e.stop ≤ f.start

section

variable {source : List Char} {next : Option Edit} {e : Edit} {es : List Edit}

theorem applicable_nil : Applicable source [] := ⟨by simp, .nil⟩

theorem applicable_cons :
    Applicable source (e :: es) ↔
      (e.Fits source ∧ ∀ f ∈ es.head?, e.stop ≤ f.start) ∧ Applicable source es := by
  rw [Applicable, Applicable, List.forall_mem_cons, List.isChain_cons]
  tauto

theorem Applicable.of_append {front : List Edit} (h : Applicable source (front ++ es)) :
    Applicable source es :=
  ⟨fun f hf => h.1 f (List.mem_append_right _ hf), h.2.right_of_append⟩

theorem exists_fault (h : ¬(e.Fits source ∧ ∀ f ∈ next, e.stop ≤ f.start)) :
    ∃ err, Fault source next e err := by
  by_cases hbounds : e.start ≤ e.stop ∧ e.stop ≤ byteLength source
  · by_cases hboundary : isBoundary source e.start = true ∧ isBoundary source e.stop = true
    · have hfits : e.Fits source := ⟨hbounds.1, hbounds.2, hboundary.1, hboundary.2⟩
      simp only [hfits, true_and, not_forall, Nat.not_le] at h
      obtain ⟨f, hf, hover⟩ := h
      exact ⟨_, .overlapping hfits hf hover⟩
    · exact ⟨_, .notBoundary hbounds hboundary⟩
  · exact ⟨_, .outOfBounds hbounds⟩

theorem check_of_fault {err : EditError} (h : Fault source next e err) :
    check source (next.map (·.start)) [e] = .error err := by
  rw [check]
  cases h with
  | outOfBounds hbounds =>
    rw [if_pos]
    simp only [Bool.or_eq_true, decide_eq_true_eq]
    omega
  | notBoundary hbounds hboundary =>
    rw [if_neg, if_pos]
    · simpa [-not_and, Classical.not_and_iff_not_or_not] using hboundary
    · simp only [Bool.or_eq_true, decide_eq_true_eq]
      omega
  | overlapping hfits hnext hover =>
    obtain ⟨hstart, hstop, hboundary, hboundary'⟩ := hfits
    obtain rfl := Option.mem_def.mp hnext
    rw [if_neg, if_neg, if_pos]
    · simpa using hover
    · simp [hboundary, hboundary']
    · simp only [Bool.or_eq_true, decide_eq_true_eq]
      omega

theorem check_of_fits (hfits : e.Fits source) (hnext : ∀ f ∈ next, e.stop ≤ f.start) :
    check source (next.map (·.start)) [e] = .ok () := by
  obtain ⟨hstart, hstop, hboundary, hboundary'⟩ := hfits
  rw [check, if_neg, if_neg, if_neg]
  · rfl
  · cases next with
    | none => simp
    | some f => simpa using hnext f rfl
  · simp [hboundary, hboundary']
  · simp only [Bool.or_eq_true, decide_eq_true_eq]
    omega

theorem check_concat (next : Option Nat) (es : List Edit) (e : Edit) :
    check source next (es ++ [e]) =
      (check source next es).bind fun _ =>
        check source ((es.getLast?.map (·.start)).or next) [e] := by
  induction es generalizing next with
  | nil => rfl
  | cons f es ih =>
    rw [List.cons_append, check, check, ih]
    have hlast : ((f :: es).getLast?.map (·.start)).or next =
        (es.getLast?.map (·.start)).or (some f.start) := by
      rw [List.getLast?_cons]
      cases es.getLast? <;> rfl
    rw [hlast]
    split_ifs <;> rfl

theorem check_reverse_cons (e : Edit) (es : List Edit) :
    check source none (e :: es).reverse =
      (check source none es.reverse).bind fun _ => check source (es.head?.map (·.start)) [e] := by
  rw [List.reverse_cons, check_concat, List.getLast?_reverse, Option.or_none]

theorem check_of_applicable (h : Applicable source es) : check source none es.reverse = .ok () := by
  induction es with
  | nil => rfl
  | cons e es ih =>
    obtain ⟨⟨hfits, hnext⟩, hes⟩ := applicable_cons.mp h
    rw [check_reverse_cons, ih hes]
    exact check_of_fits hfits hnext

theorem check_of_last_fault {front later : List Edit} {err : EditError}
    (hlater : Applicable source later) (hfault : Fault source later.head? e err) :
    check source none (front ++ e :: later).reverse = .error err := by
  induction front with
  | nil =>
    rw [List.nil_append, check_reverse_cons, check_of_applicable hlater]
    exact check_of_fault hfault
  | cons f front ih =>
    rw [List.cons_append, check_reverse_cons, ih]
    rfl

theorem exists_last_fault (h : ¬Applicable source es) :
    ∃ front e later err, es = front ++ e :: later ∧ Applicable source later ∧
      Fault source later.head? e err := by
  induction es with
  | nil => exact absurd applicable_nil h
  | cons e es ih =>
    by_cases hes : Applicable source es
    · rw [applicable_cons, and_iff_left hes] at h
      obtain ⟨err, hfault⟩ := exists_fault h
      exact ⟨[], e, es, err, rfl, hes, hfault⟩
    · obtain ⟨front, f, later, err, rfl, hlater, hfault⟩ := ih hes
      exact ⟨e :: front, f, later, err, rfl, hlater, hfault⟩

theorem check_eq_ok_iff : check source none es.reverse = .ok () ↔ Applicable source es := by
  constructor
  · intro hok
    by_contra h
    obtain ⟨front, e, later, err, rfl, hlater, hfault⟩ := exists_last_fault h
    rw [check_of_last_fault hlater hfault] at hok
    cases hok
  · exact check_of_applicable

theorem check_eq_error_iff {err : EditError} :
    check source none es.reverse = .error err ↔
      ∃ front e later, es = front ++ e :: later ∧ Applicable source later ∧
        Fault source later.head? e err := by
  constructor
  · intro herror
    have h : ¬Applicable source es := by
      intro h
      rw [check_of_applicable h] at herror
      cases herror
    obtain ⟨front, e, later, err', rfl, hlater, hfault⟩ := exists_last_fault h
    rw [check_of_last_fault hlater hfault] at herror
    cases herror
    exact ⟨front, e, later, rfl, hlater, hfault⟩
  · rintro ⟨front, e, later, rfl, hlater, hfault⟩
    exact check_of_last_fault hlater hfault

end

/-! ### The outcome -/

/-- The source from an offset on, with edits made: the untouched part in front of an edit, its
replacement, and so on. -/
def spliced (source : List Char) (done : Nat) : List Edit → List Char
  | [] => dropBytes done source
  | e :: es =>
    takeBytes (e.start - done) (dropBytes done source) ++
      (e.replacement.toList ++ spliced source e.stop es)

section

variable {source : List Char} {e : Edit} {es : List Edit}

theorem Fits.exists_parts (h : e.Fits source) :
    ∃ x w y, source = x ++ (w ++ y) ∧ byteLength x = e.start ∧ e.start + byteLength w = e.stop :=
  exists_parts_of_isBoundary h.boundary_start h.boundary_stop h.start_le

theorem splice_parts {x w s : List Char} (hx : byteLength x = e.start)
    (hw : e.start + byteLength w = e.stop) :
    splice (x ++ (w ++ s)) e = x ++ (e.replacement.toList ++ s) := by
  have hstop : e.stop = byteLength (x ++ w) := by rw [byteLength_append]; omega
  rw [splice, ← hx, takeBytes_byteLength, hstop, ← List.append_assoc x w, dropBytes_byteLength,
    List.append_assoc]

/-- Edits that are made from the last to the first leave alone what stands in front of them all. -/
theorem foldr_splice {done : Nat} (h : Applicable source es) (hdone : isBoundary source done = true)
    (hfirst : ∀ e ∈ es.head?, done ≤ e.start) :
    es.foldr (fun e text => splice text e) source =
      takeBytes done source ++ spliced source done es := by
  induction es generalizing done with
  | nil =>
    obtain ⟨l, r, rfl, rfl⟩ := exists_append_of_isBoundary hdone
    simp [spliced]
  | cons e es ih =>
    obtain ⟨⟨hfits, hnext⟩, hes⟩ := applicable_cons.mp h
    have hle := hfirst e rfl
    rw [List.foldr_cons, ih hes hfits.boundary_stop hnext, spliced]
    generalize spliced source e.stop es = rest
    -- what is left of the source in front of the edit is in two parts
    obtain ⟨x, v, y, rfl, hx, hv⟩ := hfits.exists_parts
    obtain ⟨l, r, hcut, hl⟩ := exists_append_of_isBoundary hdone
    obtain ⟨w, rfl, -⟩ := exists_append_of_byteLength_le hcut.symm (by omega)
    have hstop : takeBytes e.stop ((l ++ w) ++ (v ++ y)) = (l ++ w) ++ v := by
      rw [← hv, ← hx, takeBytes_append, takeBytes_byteLength]
    have hgap : takeBytes (e.start - done) (dropBytes done ((l ++ w) ++ (v ++ y))) = w := by
      rw [List.append_assoc]
      exact takeBytes_dropBytes hl (by rw [byteLength_append] at hx; omega)
    have hdone : takeBytes done ((l ++ w) ++ (v ++ y)) = l := by
      rw [← hl, List.append_assoc, takeBytes_byteLength]
    rw [hstop, hgap, hdone, List.append_assoc (l ++ w), splice_parts hx hv, List.append_assoc l]

theorem foldl_splice (h : Applicable source es) :
    es.reverse.foldl splice source = spliced source 0 es := by
  have hzero : isBoundary source 0 = true := by simp [isBoundary]
  rw [List.foldl_reverse, foldr_splice h hzero fun _ _ => Nat.zero_le _, takeBytes, List.nil_append]

/-- When an edit is made, its range lies in the text and between characters, although the text has
changed. -/
theorem Applicable.fits_foldr (h : Applicable source (e :: es)) :
    e.Fits (es.foldr (fun e text => splice text e) source) := by
  obtain ⟨⟨hfits, hnext⟩, hes⟩ := applicable_cons.mp h
  rw [foldr_splice hes hfits.boundary_stop hnext]
  obtain ⟨x, v, y, rfl, hx, hv⟩ := hfits.exists_parts
  have hstop : takeBytes e.stop (x ++ (v ++ y)) = x ++ v := by
    rw [← hv, ← hx, takeBytes_append, takeBytes_byteLength]
  have hlen : byteLength (x ++ v) = e.stop := by rw [byteLength_append]; omega
  rw [hstop]
  refine ⟨hfits.start_le, ?_, ?_, ?_⟩
  · rw [byteLength_append]
    omega
  · rw [← hx, List.append_assoc]
    exact isBoundary_byteLength _ _
  · rw [← hlen]
    exact isBoundary_byteLength _ _

theorem pairwise_of_applicable (h : Applicable source es) :
    es.Pairwise fun e f => e.stop ≤ f.start := by
  induction es with
  | nil => exact .nil
  | cons e es ih =>
    obtain ⟨⟨hfits, hnext⟩, hes⟩ := applicable_cons.mp h
    refine List.pairwise_cons.mpr ⟨fun f hf => ?_, ih hes⟩
    cases es with
    | nil => cases hf
    | cons g es =>
      have hg := hnext g rfl
      rcases List.mem_cons.mp hf with rfl | hf
      · exact hg
      · have hlater := List.rel_of_pairwise_cons (ih hes) hf
        have := (hes.1 g List.mem_cons_self).start_le
        omega

end

theorem applyAll_eq (source : String) (edits : List Edit) :
    applyAll source edits = (check source.toList none (byPlace edits).reverse).map fun _ =>
      String.ofList ((byPlace edits).reverse.foldl splice source.toList) := by
  rw [applyAll, fromTheEnd_eq]
  cases check source.toList none (byPlace edits).reverse <;> rfl

theorem applyAll_eq_ok_iff {source : String} {edits : List Edit} {result : String} :
    applyAll source edits = .ok result ↔
      Applicable source.toList (byPlace edits) ∧ result.toList =
        spliced source.toList 0 (byPlace edits) := by
  rw [applyAll_eq]
  constructor
  · intro h
    cases hcheck : check source.toList none (byPlace edits).reverse with
    | error err =>
      rw [hcheck] at h
      cases h
    | ok u =>
      have happlicable := check_eq_ok_iff.mp hcheck
      rw [hcheck] at h
      cases h
      refine ⟨happlicable, ?_⟩
      rw [String.toList_ofList, foldl_splice happlicable]
  · rintro ⟨happlicable, hresult⟩
    rw [check_eq_ok_iff.mpr happlicable, foldl_splice happlicable, ← hresult, String.ofList_toList]
    rfl

theorem applyAll_eq_error_iff {source : String} {edits : List Edit} {err : EditError} :
    applyAll source edits = .error err ↔
      ∃ front e later, byPlace edits = front ++ e :: later ∧ Applicable source.toList later ∧
        Fault source.toList later.head? e err := by
  rw [applyAll_eq, ← check_eq_error_iff]
  cases check source.toList none (byPlace edits).reverse <;> simp [Except.map]

theorem stop_le_start {source : List Char} {edits : List Edit}
    (h : Applicable source (byPlace edits)) {e f : Edit} {i j : Nat} (he : edits[i]? = some e)
    (hf : edits[j]? = some f) (hprecedes : Precedes (e, i) (f, j)) : e.stop ≤ f.start := by
  obtain ⟨numbered, hperm, hsorted, heq⟩ := inOrder_byPlace edits
  rw [heq] at h
  have hstops : numbered.Pairwise fun e f : Edit × Nat => e.1.stop ≤ f.1.start :=
    List.pairwise_map.mp (pairwise_of_applicable h)
  have hmem {e : Edit} {i : Nat} (he : edits[i]? = some e) : (e, i) ∈ numbered :=
    hperm.mem_iff.mpr (List.mem_zipIdx_iff_getElem?.mpr he)
  obtain ⟨m, hm, hem⟩ := List.getElem_of_mem (hmem he)
  obtain ⟨n, hn, hfn⟩ := List.getElem_of_mem (hmem hf)
  unfold Precedes at hprecedes
  rcases Nat.lt_trichotomy m n with hlt | rfl | hgt
  · have hstop := List.pairwise_iff_getElem.mp hstops m n hm hn hlt
    rwa [hem, hfn] at hstop
  · cases hem.symm.trans hfn
    omega
  · have hafter := List.pairwise_iff_getElem.mp hsorted n m hn hm hgt
    rw [hem, hfn] at hafter
    unfold Precedes at hafter
    omega

/-- Edits are made at once: they succeed exactly if each one fits and ends where the next one starts
or before that, and the outcome is the source with the replacements between its untouched parts; no
edit is out of range when it is made. Otherwise the fault is that of the last edit that has one. An
insertion where another edit starts to replace text is made only if it is given earlier. -/
theorem applyAll_at_once (source : String) (edits : List Edit) :
    ∃ ordered, (∀ es, InOrder edits es ↔ es = ordered) ∧
      (∀ result, applyAll source edits = .ok result ↔
        Applicable source.toList ordered ∧ result.toList = spliced source.toList 0 ordered) ∧
      (∀ err, applyAll source edits = .error err ↔
        ∃ front e later, ordered = front ++ e :: later ∧ Applicable source.toList later ∧
          Fault source.toList later.head? e err) ∧
      (Applicable source.toList ordered → ∀ front e later, ordered = front ++ e :: later →
        e.Fits (later.reverse.foldl splice source.toList)) ∧
      (Applicable source.toList ordered → ∀ (i j : Nat) (e f : Edit), edits[i]? = some e →
        edits[j]? = some f → e.IsInsertion → e.start = f.start → f.start < f.stop → i < j) := by
  refine ⟨byPlace edits, fun es => inOrder_iff, fun result => applyAll_eq_ok_iff,
    fun err => applyAll_eq_error_iff, ?_, ?_⟩
  · intro h front e later hordered
    rw [hordered] at h
    rw [List.foldl_reverse]
    exact h.of_append.fits_foldr
  · intro h i j e f he hf hinsertion hstart hreplaces
    by_contra hle
    have hne : i ≠ j := by
      rintro rfl
      rw [he] at hf
      cases hf
      unfold IsInsertion at hinsertion
      omega
    have := stop_le_start h hf he (.inr ⟨hstart.symm, by omega⟩)
    omega

end SignatureInference.Edit
