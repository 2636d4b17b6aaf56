import Mathlib.Data.List.Basic
import SignatureInference.Edit
import SignatureInference.Proofs.Text.Offsets

/-! # Insertions one after another

Insertions at different offsets of one text may be made one after another, in any order, if each
offset is moved by the insertions before it. The outcome is the text with all of them made at once.
-/
namespace SignatureInference

open Text

namespace Text

def insertAt (n : Nat) (t cs : List Char) : List Char := takeBytes n cs ++ (t ++ dropBytes n cs)

@[simp] theorem insertAt_byteLength (t x y : List Char) :
    insertAt (byteLength x) t (x ++ y) = x ++ (t ++ y) := by
  rw [insertAt, takeBytes_byteLength, dropBytes_byteLength]

theorem shift_comm (m n k l offset : Nat) :
    shift (shift m k n) l (shift m k offset) = shift (shift n l m) k (shift n l offset) := by
  unfold shift
  split_ifs <;> omega

theorem shift_ne_shift {place length m n : Nat} (h : m ≠ n) :
    shift place length m ≠ shift place length n := by
  unfold shift
  split_ifs <;> omega

section

variable {cs : List Char} {m n : Nat}

theorem isBoundary_insertAt (hm : isBoundary cs m = true) (hn : isBoundary cs n = true)
    (t : List Char) : isBoundary (insertAt m t cs) (shift m (byteLength t) n) = true := by
  obtain ⟨x, y, rfl, rfl⟩ := exists_append_of_isBoundary hm
  obtain ⟨v, w, he, rfl⟩ := exists_append_of_isBoundary hn
  rw [insertAt_byteLength]
  rcases Nat.lt_or_ge (byteLength v) (byteLength x) with hlt | hge
  · obtain ⟨z, rfl, rfl⟩ := exists_append_of_byteLength_le he.symm hlt.le
    rw [shift_of_lt hlt, List.append_assoc]
    exact isBoundary_byteLength v _
  · obtain ⟨z, rfl, rfl⟩ := exists_append_of_byteLength_le he hge
    have hlen : byteLength (x ++ z) + byteLength t = byteLength (x ++ (t ++ z)) := by
      simp only [byteLength_append]
      omega
    have htext : x ++ (t ++ (z ++ w)) = x ++ (t ++ z) ++ w := by simp
    rw [shift_of_le hge, hlen, htext]
    exact isBoundary_byteLength _ _

theorem insertAt_comm_of_lt (hm : isBoundary cs m = true) (hn : isBoundary cs n = true) (h : m < n)
    (t u : List Char) :
    insertAt (shift m (byteLength t) n) u (insertAt m t cs) =
      insertAt (shift n (byteLength u) m) t (insertAt n u cs) := by
  obtain ⟨x, y, rfl, rfl⟩ := exists_append_of_isBoundary hm
  obtain ⟨v, w, he, rfl⟩ := exists_append_of_isBoundary hn
  obtain ⟨z, rfl, rfl⟩ := exists_append_of_byteLength_le he h.le
  have hlen : byteLength (x ++ z) + byteLength t = byteLength (x ++ (t ++ z)) := by
    simp only [byteLength_append]
    omega
  rw [shift_of_lt h, shift_of_le h.le, insertAt_byteLength, ← List.append_assoc x z w,
    insertAt_byteLength, hlen]
  have hleft : x ++ (t ++ (z ++ w)) = x ++ (t ++ z) ++ w := by simp
  rw [hleft, insertAt_byteLength, List.append_assoc x z, insertAt_byteLength]
  simp only [List.append_assoc]

theorem insertAt_comm (hm : isBoundary cs m = true) (hn : isBoundary cs n = true) (h : m ≠ n)
    (t u : List Char) :
    insertAt (shift m (byteLength t) n) u (insertAt m t cs) =
      insertAt (shift n (byteLength u) m) t (insertAt n u cs) := by
  rcases Nat.lt_or_gt_of_ne h with hlt | hgt
  · exact insertAt_comm_of_lt hm hn hlt t u
  · exact (insertAt_comm_of_lt hn hm hgt u t).symm

end

end Text

namespace Edit

def IsInsertion (e : Edit) : Prop := e.stop = e.start

def gain (e : Edit) : Nat := byteLength e.replacement.toList

theorem splice_insertion {e : Edit} (h : e.IsInsertion) (source : List Char) :
    splice source e = insertAt e.start e.replacement.toList source := by
  rw [splice, insertAt, h, List.append_assoc]

/-- Makes insertions one after another, where `move` says where the offsets of the first text have
gone so far. -/
def insertFrom (move : Nat → Nat) (source : List Char) : List Edit → List Char
  | [] => source
  | e :: es =>
    insertFrom (shift (move e.start) e.gain ∘ move)
      (insertAt (move e.start) e.replacement.toList source) es

/-- The order of insertions at different offsets does not matter. -/
theorem insertFrom_perm {es fs : List Edit} (h : es.Perm fs) {move : Nat → Nat} {source : List Char}
    (hboundary : ∀ e ∈ es, isBoundary source (move e.start) = true)
    (hdistinct : es.Pairwise fun e f => move e.start ≠ move f.start) :
    insertFrom move source es = insertFrom move source fs := by
  induction h generalizing move source with
  | nil => rfl
  | @cons e es fs h ih =>
    rw [List.pairwise_cons] at hdistinct
    have he := hboundary e List.mem_cons_self
    refine ih (fun f hf => ?_) (hdistinct.2.imp fun hne => shift_ne_shift hne)
    exact isBoundary_insertAt he (hboundary f (List.mem_cons_of_mem _ hf)) _
  | swap e f es =>
    have hne := List.rel_of_pairwise_cons hdistinct (List.mem_cons_self)
    have he := hboundary e (by simp)
    have hf := hboundary f (by simp)
    simp only [insertFrom, Function.comp_apply, gain]
    rw [insertAt_comm hf he hne]
    congr 1
    funext offset
    exact shift_comm _ _ _ _ _
  | trans h₁ h₂ ih₁ ih₂ =>
    rw [ih₁ hboundary hdistinct]
    exact ih₂ (fun e he => hboundary e (h₁.mem_iff.mpr he))
      (h₁.pairwise hdistinct fun h => h.symm)

theorem fromTheEnd_perm (es : List Edit) : (fromTheEnd es).Perm es :=
  (List.reverse_perm _).trans (List.mergeSort_perm es _)

theorem pairwise_fromTheEnd (es : List Edit) :
    (fromTheEnd es).Pairwise fun e f => f.start ≤ e.start := by
  rw [fromTheEnd, List.pairwise_reverse]
  refine (List.pairwise_mergeSort (fun a b c hab hbc => ?_) (fun a b => ?_) es).imp fun h => by
    simpa using h
  · simp only [decide_eq_true_eq] at hab hbc ⊢
    omega
  · simp only [Bool.or_eq_true, decide_eq_true_eq]
    omega

section

variable {source : List Char} {es : List Edit}

theorem check_insertions {next : Option Nat} (hinsertion : ∀ e ∈ es, e.IsInsertion)
    (hboundary : ∀ e ∈ es, isBoundary source e.start = true)
    (hnext : ∀ n ∈ next, ∀ e ∈ es, e.start ≤ n)
    (hsorted : es.Pairwise fun e f => f.start ≤ e.start) :
    check source next es = .ok () := by
  induction es generalizing next with
  | nil => rfl
  | cons e es ih =>
    have hins := hinsertion e List.mem_cons_self
    have hbound := hboundary e List.mem_cons_self
    have hle : e.start ≤ byteLength source := by
      obtain ⟨x, y, rfl, hx⟩ := exists_append_of_isBoundary hbound
      rw [byteLength_append]
      omega
    have hany : next.any (· < e.start) = false := by
      cases next with
      | none => rfl
      | some n => simpa using hnext n rfl e List.mem_cons_self
    rw [List.pairwise_cons] at hsorted
    unfold IsInsertion at hins
    rw [check, hins, hbound, hany]
    simp only [Nat.lt_irrefl, decide_false, Bool.false_or, Nat.not_lt.mpr hle, Bool.and_self,
      Bool.not_true, Bool.false_eq_true, if_false]
    refine ih (fun f hf => hinsertion f (List.mem_cons_of_mem _ hf))
      (fun f hf => hboundary f (List.mem_cons_of_mem _ hf)) (fun n hn f hf => ?_) hsorted.2
    obtain rfl : e.start = n := by simpa using hn
    exact hsorted.1 f hf

/-- Made from the last to the first, no insertion moves the place of another one. -/
theorem foldl_splice_eq_insertFrom (hinsertion : ∀ e ∈ es, e.IsInsertion) {move : Nat → Nat}
    (hmove : ∀ e ∈ es, move e.start = e.start)
    (hsorted : es.Pairwise fun e f => f.start < e.start) :
    es.foldl splice source = insertFrom move source es := by
  induction es generalizing source move with
  | nil => rfl
  | cons e es ih =>
    rw [List.pairwise_cons] at hsorted
    rw [List.foldl_cons, insertFrom, hmove e List.mem_cons_self,
      splice_insertion (hinsertion e List.mem_cons_self)]
    refine ih (fun f hf => hinsertion f (List.mem_cons_of_mem _ hf)) (fun f hf => ?_) hsorted.2
    rw [Function.comp_apply, hmove f (List.mem_cons_of_mem _ hf), shift_of_lt (hsorted.1 f hf)]

end

/-- Insertions at different offsets can be made at once, and that is the same as making them one
after another. -/
theorem applyAll_insertions {source : String} {es : List Edit}
    (hinsertion : ∀ e ∈ es, e.IsInsertion)
    (hboundary : ∀ e ∈ es, isBoundary source.toList e.start = true)
    (hdistinct : es.Pairwise fun e f => e.start ≠ f.start) :
    applyAll source es = .ok (String.ofList (insertFrom id source.toList es)) := by
  have hperm := fromTheEnd_perm es
  have hinsertion' : ∀ e ∈ fromTheEnd es, e.IsInsertion :=
    fun e he => hinsertion e (hperm.mem_iff.mp he)
  have hboundary' : ∀ e ∈ fromTheEnd es, isBoundary source.toList e.start = true := fun e he =>
    hboundary e (hperm.mem_iff.mp he)
  have hdistinct' := hperm.symm.pairwise hdistinct fun h => h.symm
  have hsorted := pairwise_fromTheEnd es
  have hstrict : (fromTheEnd es).Pairwise fun e f => f.start < e.start :=
    (hsorted.and hdistinct').imp fun h => lt_of_le_of_ne h.1 h.2.symm
  have hcheck : check source.toList none (fromTheEnd es) = .ok () :=
    check_insertions hinsertion' hboundary' (by simp) hsorted
  have hfold : (fromTheEnd es).foldl splice source.toList = insertFrom id source.toList es :=
    (foldl_splice_eq_insertFrom hinsertion' (fun _ _ => rfl) hstrict).trans
      (insertFrom_perm hperm hboundary' hdistinct')
  rw [applyAll]
  simp only [hcheck, hfold]
  rfl

end Edit

end SignatureInference
