import Mathlib.Data.List.Basic

/-! # Lists

Lists without repetitions, lists with at most one member of each key, and lists that are mapped
where a member may have no image.
-/
namespace SignatureInference

theorem eraseDupsBy_concat {α : Type} (r : α → α → Bool) (a : α) (xs : List α) :
    (xs ++ [a]).eraseDupsBy r =
      if (xs.eraseDupsBy r).any (r a) = true then xs.eraseDupsBy r
      else xs.eraseDupsBy r ++ [a] := by
  induction hlength : xs.length using Nat.strongRecOn generalizing xs with
  | ind n ih =>
    cases xs with
    | nil => rfl
    | cons x xs =>
      rw [List.cons_append, List.eraseDupsBy_cons, List.eraseDupsBy_cons, List.filter_append,
        List.any_cons]
      cases hax : r a x with
      | true => simp [hax]
      | false =>
        have hshorter : (xs.filter fun b => decide (r b x = false)).length < n := by
          have := List.length_filter_le (fun b => decide (r b x = false)) xs
          rw [List.length_cons] at hlength
          omega
        have hkept : [a].filter (fun b => decide (r b x = false)) = [a] := by simp [hax]
        rw [hkept, ih _ hshorter _ rfl, Bool.false_or]
        split <;> simp

theorem of_eraseDupsBy_singleton {α : Type} {r : α → α → Bool} {xs : List α} {a : α}
    (h : xs.eraseDupsBy r = [a]) : a ∈ xs ∧ ∀ b ∈ xs, b = a ∨ r b a = true := by
  cases xs with
  | nil => cases h
  | cons x xs =>
    rw [List.eraseDupsBy_cons] at h
    obtain ⟨rfl, hrest⟩ := List.cons.inj h
    have hnone : xs.filter (fun b => decide (r b x = false)) = [] := by
      cases hfilter : xs.filter fun b => decide (r b x = false) with
      | nil => rfl
      | cons y ys =>
        rw [hfilter, List.eraseDupsBy_cons] at hrest
        cases hrest
    refine ⟨List.mem_cons_self, fun b hb => ?_⟩
    rcases List.mem_cons.mp hb with rfl | hb
    · exact .inl rfl
    · right
      simpa using List.filter_eq_nil_iff.mp hnone b hb

theorem eq_of_perm_of_length_le_one {α : Type} {xs ys : List α} (hperm : xs.Perm ys)
    (hlength : xs.length ≤ 1) : xs = ys := by
  rcases Nat.le_one_iff_eq_zero_or_eq_one.mp hlength with hzero | hone
  · obtain rfl := List.length_eq_zero_iff.mp hzero
    exact hperm.nil_eq
  · obtain ⟨x, rfl⟩ := List.length_eq_one_iff.mp hone
    exact List.singleton_perm.mp hperm

theorem filter_key_eq_singleton {α κ : Type} [DecidableEq κ] {key : α → κ} {xs : List α}
    (hnodup : (xs.map key).Nodup) {x : α} (hx : x ∈ xs) : xs.filter (key · = key x) = [x] := by
  induction xs with
  | nil => cases hx
  | cons y ys ih =>
    rw [List.map_cons, List.nodup_cons] at hnodup
    have hne : ∀ z ∈ ys, key z ≠ key y := fun z hz heq => hnodup.1 (heq ▸ List.mem_map_of_mem hz)
    rcases List.mem_cons.mp hx with rfl | hx
    · simpa [List.filter_eq_nil_iff] using hne
    · rw [List.filter_cons_of_neg (by simpa using (hne x hx).symm), ih hnodup.2 hx]

theorem map_filterMap_sublist {α β γ : Type} {f : α → Option β} {g : β → γ} {h : α → γ}
    (hf : ∀ x y, f x = some y → g y = h x) (xs : List α) :
    ((xs.filterMap f).map g).Sublist (xs.map h) := by
  induction xs with
  | nil => exact .slnil
  | cons x xs ih =>
    rw [List.map_cons]
    cases hx : f x with
    | none =>
      rw [List.filterMap_cons_none hx]
      exact ih.cons _
    | some y =>
      rw [List.filterMap_cons_some hx, List.map_cons, hf x y hx]
      exact ih.cons_cons _

theorem map_of_mapM {α β : Type} {f : α → Option β} {xs : List α} {ys : List β}
    (h : xs.mapM f = some ys) : xs.map f = ys.map some := by
  induction xs generalizing ys with
  | nil =>
    cases h
    rfl
  | cons x xs ih =>
    rw [List.mapM_cons] at h
    obtain ⟨y, hy, h⟩ := Option.bind_eq_some_iff.mp h
    obtain ⟨rest, hrest, h⟩ := Option.bind_eq_some_iff.mp h
    cases h
    rw [List.map_cons, List.map_cons, hy, ih hrest]

theorem flatten_of_mapM {α β ε : Type} {f : α → Except ε (List β)} {g : α → List β} {xs : List α}
    {yss : List (List β)} (hg : ∀ x ys, f x = .ok ys → g x = ys) (h : xs.mapM f = .ok yss) :
    yss.flatten = xs.flatMap g := by
  induction xs generalizing yss with
  | nil =>
    cases h
    rfl
  | cons x xs ih =>
    rw [List.mapM_cons] at h
    cases hx : f x with
    | error e =>
      rw [hx] at h
      cases h
    | ok ys =>
      rw [hx] at h
      cases hrest : xs.mapM f with
      | error e =>
        rw [hrest] at h
        cases h
      | ok zss =>
        rw [hrest] at h
        cases h
        rw [List.flatten_cons, List.flatMap_cons, ih hrest, hg x ys hx]

end SignatureInference
