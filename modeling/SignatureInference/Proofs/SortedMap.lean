import Mathlib.Data.List.Basic
import SignatureInference.SortedMap

/-! # Entries of sorted maps

A sorted map has at most one entry for each key, the one that is looked up, so that maps with the
same look-ups are equal. A map that was filled from a list, without replacing anything, holds the
first value of each key.
-/
namespace SignatureInference.SortedMap

open Std

variable {κ α : Type} [Ord κ]

theorem isEmpty_iff (m : SortedMap κ α) : m.isEmpty = true ↔ m = ∅ := by
  constructor
  · intro h
    exact ext (List.isEmpty_iff.mp h)
  · rintro rfl
    rfl

theorem first_of_find? {m : SortedMap κ α} {p : κ × α → Bool} {e : κ × α}
    (h : m.entries.find? p = some e) :
    ∀ f ∈ m.entries, p f = true → f = e ∨ compare e.1 f.1 = .lt := by
  obtain ⟨-, before, after, hentries, hbefore⟩ := List.find?_eq_some_iff_append.mp h
  have hsorted := m.sorted
  rw [hentries, List.pairwise_append] at hsorted
  intro f hf hp
  rw [hentries, List.mem_append, List.mem_cons] at hf
  rcases hf with hf | rfl | hf
  · simpa [hp] using hbefore f hf
  · exact .inl rfl
  · exact .inr (List.rel_of_pairwise_cons hsorted.2.1 hf)

theorem mem_of_lookup [LawfulEqOrd κ] {k : κ} {v : α} {es : List (κ × α)}
    (h : lookup k es = some v) :
    (k, v) ∈ es := by
  induction es with
  | nil => cases h
  | cons e es ih =>
    rw [lookup] at h
    split at h
    · next hk =>
      obtain rfl : k = e.1 := LawfulEqCmp.eq_of_compare hk
      cases h
      exact List.mem_cons_self
    · exact List.mem_cons_of_mem _ (ih h)

theorem nodup_keys [LawfulEqOrd κ] (m : SortedMap κ α) : m.keys.Nodup := by
  rw [keys, List.Nodup, List.pairwise_map]
  refine m.sorted.imp fun {a b} hlt heq => ?_
  have heq' : compare a.1 b.1 = .eq := LawfulEqCmp.compare_eq_iff_eq.mpr heq
  rw [heq'] at hlt
  cases hlt

theorem lookup_eq_find? [LawfulEqOrd κ] [DecidableEq κ] (k : κ) (es : List (κ × α)) :
    lookup k es = (es.find? fun e => e.1 = k).map (·.2) := by
  induction es with
  | nil => rfl
  | cons e es ih =>
    rw [lookup, List.find?_cons, ih]
    by_cases he : e.1 = k
    · simp [he]
    · have hne : ¬compare k e.1 = .eq := fun h => he (LawfulEqCmp.eq_of_compare h).symm
      simp [he, hne]

theorem get?_erase [LawfulEqOrd κ] [DecidableEq κ] (m : SortedMap κ α) (k l : κ) :
    (m.erase k).get? l = if l = k then none else m.get? l := by
  unfold get? erase
  simp only
  induction m.entries with
  | nil => simp [lookup]
  | cons e es ih =>
    by_cases he : compare k e.1 = .eq
    · obtain rfl : k = e.1 := LawfulEqCmp.eq_of_compare he
      rw [List.filter_cons_of_neg (by simp), ih, lookup]
      by_cases hl : l = e.1
      · rw [if_pos hl, if_pos hl]
      · have hne : ¬compare l e.1 = .eq := fun h => hl (LawfulEqCmp.eq_of_compare h)
        rw [if_neg hl, if_neg hl, if_neg hne]
    · rw [List.filter_cons_of_pos (by simpa using he), lookup, lookup, ih]
      split
      · next hl =>
        rw [if_neg]
        rintro rfl
        exact he hl
      · rfl

variable [TransOrd κ] [LawfulEqOrd κ]

theorem lookup_of_mem {k : κ} {v : α} {es : List (κ × α)}
    (hsorted : es.Pairwise fun a b => compare a.1 b.1 = .lt) (h : (k, v) ∈ es) :
    lookup k es = some v := by
  induction es with
  | nil => cases h
  | cons e es ih =>
    rw [List.pairwise_cons] at hsorted
    rw [lookup]
    rcases List.mem_cons.mp h with rfl | h
    · simp
    · have hlt := hsorted.1 _ h
      rw [if_neg, ih hsorted.2 h]
      intro heq
      rw [OrientedCmp.gt_of_lt hlt] at heq
      cases heq

theorem mem_entries_iff (m : SortedMap κ α) {k : κ} {v : α} :
    (k, v) ∈ m.entries ↔ m.get? k = some v :=
  ⟨lookup_of_mem m.sorted, mem_of_lookup⟩

theorem mem_keys_iff (m : SortedMap κ α) {k : κ} : k ∈ m.keys ↔ m.contains k = true := by
  rw [contains, Option.isSome_iff_exists, keys, List.mem_map]
  constructor
  · rintro ⟨⟨l, v⟩, he, rfl⟩
    exact ⟨v, (mem_entries_iff m).mp he⟩
  · rintro ⟨v, hv⟩
    exact ⟨(k, v), (mem_entries_iff m).mpr hv, rfl⟩

theorem eq_of_mem_iff {β : Type} (key : β → κ) {xs ys : List β}
    (hxs : xs.Pairwise fun x y => compare (key x) (key y) = .lt)
    (hys : ys.Pairwise fun x y => compare (key x) (key y) = .lt) (h : ∀ x, x ∈ xs ↔ x ∈ ys) :
    xs = ys := by
  have hnodup : ∀ {zs : List β}, (zs.Pairwise fun x y => compare (key x) (key y) = .lt) →
      zs.Nodup := by
    intro zs hzs
    apply hzs.imp
    rintro x y hlt rfl
    simp at hlt
  have hperm : xs.Perm ys := (List.perm_ext_iff_of_nodup (hnodup hxs) (hnodup hys)).mpr h
  apply hperm.eq_of_pairwise ?_ hxs hys
  intro x y _ _ hlt hgt
  exact absurd hgt (OrientedCmp.not_lt_of_lt hlt)

theorem keys_eq_of_contains {β : Type} {a : SortedMap κ α} {b : SortedMap κ β}
    (h : ∀ k, a.contains k = b.contains k) : a.keys = b.keys := by
  apply eq_of_mem_iff id (List.pairwise_map.mpr a.sorted) (List.pairwise_map.mpr b.sorted)
  intro k
  rw [← keys, ← keys, mem_keys_iff, mem_keys_iff, h k]

theorem eq_of_get? {a b : SortedMap κ α} (h : ∀ k, a.get? k = b.get? k) : a = b := by
  apply ext
  apply eq_of_mem_iff Prod.fst a.sorted b.sorted
  rintro ⟨k, v⟩
  rw [mem_entries_iff, mem_entries_iff, h k]

theorem map_values_eq {β : Type} (f : α → β) {a b : SortedMap κ α}
    (h : ∀ k, (a.get? k).map f = (b.get? k).map f) : a.values.map f = b.values.map f := by
  let shown (m : SortedMap κ α) : List (κ × β) := m.entries.map fun e => (e.1, f e.2)
  have hmem : ∀ (m : SortedMap κ α) (k : κ) (w : β), (k, w) ∈ shown m ↔
      (m.get? k).map f = some w := by
    intro m k w
    rw [List.mem_map, Option.map_eq_some_iff]
    constructor
    · rintro ⟨⟨l, v⟩, he, heq⟩
      cases heq
      exact ⟨v, (mem_entries_iff m).mp he, rfl⟩
    · rintro ⟨v, hv, rfl⟩
      exact ⟨(k, v), (mem_entries_iff m).mpr hv, rfl⟩
  have hsorted : ∀ m : SortedMap κ α, (shown m).Pairwise fun x y => compare x.1 y.1 = .lt :=
    fun m => List.pairwise_map.mpr m.sorted
  have hshown : shown a = shown b := by
    apply eq_of_mem_iff Prod.fst (hsorted a) (hsorted b)
    rintro ⟨k, w⟩
    rw [hmem, hmem, h k]
  have hvalues : ∀ m : SortedMap κ α, m.values.map f = (shown m).map (·.2) := by
    intro m
    rw [values, List.map_map, List.map_map]
    rfl
  rw [hvalues, hvalues, hshown]

theorem eq_of_contains {a b : SortedSet κ} (h : ∀ k, a.contains k = b.contains k) : a = b := by
  apply eq_of_get?
  intro k
  have hk := h k
  rw [contains, contains] at hk
  cases ha : a.get? k <;> cases hb : b.get? k <;> simp_all

variable [DecidableEq κ]

/-- Entering values without replacing any keeps the first value of each key. -/
theorem get?_foldl_insertIfNew {β : Type} (key : β → κ) (value : β → α) (xs : List β)
    (m : SortedMap κ α) (k : κ) :
    (xs.foldl (fun m x => m.insertIfNew (key x) (value x)) m).get? k =
      (m.get? k).or ((xs.find? fun x => key x = k).map value) := by
  induction xs generalizing m with
  | nil => simp
  | cons x xs ih =>
    rw [List.foldl_cons, ih, get?_insertIfNew, List.find?_cons]
    by_cases hx : k = key x
    · subst hx
      cases m.get? (key x) <;> simp
    · have hx' : ¬key x = k := fun h => hx h.symm
      simp [hx, hx']

theorem get?_foldl_insert {β : Type} (key : β → κ) (value : β → α) (xs : List β)
    (m : SortedMap κ α) (k : κ) :
    (xs.foldl (fun m x => m.insert (key x) (value x)) m).get? k =
      ((xs.reverse.find? fun x => key x = k).map value).or (m.get? k) := by
  induction xs generalizing m with
  | nil => simp
  | cons x xs ih =>
    rw [List.foldl_cons, ih, get?_insert, List.reverse_cons, List.find?_append]
    cases xs.reverse.find? fun x => key x = k with
    | some y => rfl
    | none =>
      by_cases hx : k = key x
      · simp [hx]
      · have hx' : ¬key x = k := fun h => hx h.symm
        simp [hx, hx']

/-- Entering values puts them under their keys and drops only values that are replaced. -/
theorem of_mem_foldl_insert {es : List (κ × α)} {m : SortedMap κ α} {e : κ × α}
    (h : e ∈ (es.foldl (fun m e => m.insert e.1 e.2) m).entries) : e ∈ m.entries ∨ e ∈ es := by
  induction es generalizing m with
  | nil => exact .inl h
  | cons x xs ih =>
    rcases ih h with h | h
    · rw [mem_entries_iff, get?_insert] at h
      split at h
      · next hkey =>
        right
        rw [List.mem_cons]
        exact .inl (Prod.ext hkey (Option.some.inj h).symm)
      · exact .inl ((mem_entries_iff m).mpr h)
    · exact .inr (List.mem_cons_of_mem x h)

theorem contains_foldl_insert {es : List (κ × α)} {m : SortedMap κ α} {k : κ}
    (h : m.contains k = true ∨ ∃ e ∈ es, e.1 = k) :
    (es.foldl (fun m e => m.insert e.1 e.2) m).contains k = true := by
  induction es generalizing m with
  | nil => simpa using h
  | cons x xs ih =>
    apply ih
    by_cases hx : k = x.1
    · left
      rw [contains, get?_insert, if_pos hx]
      rfl
    · rcases h with h | ⟨e, he, hk⟩
      · left
        rw [contains, get?_insert, if_neg hx]
        exact h
      · rcases List.mem_cons.mp he with rfl | he
        · exact absurd hk.symm hx
        · exact .inr ⟨e, he, hk⟩

theorem get?_union (a b : SortedMap κ α) (k : κ) :
    (a.union b).get? k = (a.get? k).or (b.get? k) := by
  have hfold := get?_foldl_insertIfNew (·.1) (·.2) b.entries a k
  rw [← lookup_eq_find?] at hfold
  exact hfold

end SignatureInference.SortedMap
