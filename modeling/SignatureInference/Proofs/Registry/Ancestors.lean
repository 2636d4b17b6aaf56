import Mathlib.Data.Fintype.EquivFin
import Mathlib.Data.Fintype.Sets
import Mathlib.Logic.Relation
import SignatureInference.Registry.Ancestors

/-! # Ancestors and reachability

The ancestors of a class are the classes that can be reached by going up. If no class is above
itself, a lowest common ancestor that has no rival is below every other common ancestor.
-/
namespace SignatureInference.Registry

variable (r : Registry)

/-- The first class stands right under the second. -/
def Under (c d : ClassName) : Prop := d ∈ r.above c

/-- No class is above itself. -/
def Acyclic : Prop := ∀ c, ¬Relation.TransGen r.Under c c

theorem acyclic_of_rank (rank : ClassName → Nat) (h : ∀ c d, r.Under c d → rank d < rank c) :
    r.Acyclic := by
  have hfalls : ∀ {c d}, Relation.TransGen r.Under c d → rank d < rank c := by
    intro c d hreach
    induction hreach with
    | single hunder => exact h _ _ hunder
    | tail _ hunder ih => exact (h _ _ hunder).trans ih
  intro c hcycle
  exact lt_irrefl _ (hfalls hcycle)

/-! ### The walk -/

theorem reached_of_mem_walk {entered pending : List ClassName} {d : ClassName}
    (hd : d ∈ r.walk entered pending) : ∃ c ∈ pending, Relation.ReflTransGen r.Under c d := by
  fun_induction r.walk entered pending with
  | case1 => cases hd
  | case2 entered c pending _ ih =>
    obtain ⟨p, hp, hreach⟩ := ih hd
    exact ⟨p, List.mem_cons_of_mem _ hp, hreach⟩
  | case3 entered c pending _ ih =>
    rcases List.mem_cons.mp hd with rfl | hd
    · exact ⟨d, List.mem_cons_self, .refl⟩
    · obtain ⟨p, hp, hreach⟩ := ih hd
      rcases List.mem_append.mp hp with habove | hpending
      · exact ⟨c, List.mem_cons_self, .head habove hreach⟩
      · exact ⟨p, List.mem_cons_of_mem _ hpending, hreach⟩

/-- Whatever is above an entered class is entered or pending. A walk that starts so leaves out
nothing: the pending classes are entered, and all that is above an entered one. -/
theorem walk_closed {entered pending : List ClassName}
    (h : ∀ c ∈ entered, ∀ d ∈ r.above c, d ∈ entered ∨ d ∈ pending) :
    (∀ c ∈ pending, c ∈ entered ∨ c ∈ r.walk entered pending) ∧
      ∀ c, c ∈ entered ∨ c ∈ r.walk entered pending →
        ∀ d ∈ r.above c, d ∈ entered ∨ d ∈ r.walk entered pending := by
  fun_induction r.walk entered pending with
  | case1 entered => simpa using h
  | case2 entered c pending hc ih =>
    have hpending : ∀ e ∈ entered, ∀ d ∈ r.above e, d ∈ entered ∨ d ∈ pending := by
      intro e he d hd
      rcases h e he d hd with hd | hd
      · exact .inl hd
      · rcases List.mem_cons.mp hd with rfl | hd
        · exact .inl hc
        · exact .inr hd
    obtain ⟨hall, hclosed⟩ := ih hpending
    refine ⟨?_, hclosed⟩
    intro p hp
    rcases List.mem_cons.mp hp with rfl | hp
    · exact .inl hc
    · exact hall p hp
  | case3 entered c pending hc ih =>
    have hpending : ∀ e ∈ c :: entered, ∀ d ∈ r.above e, d ∈ c :: entered ∨
        d ∈ r.above c ++ pending := by
      intro e he d hd
      rcases List.mem_cons.mp he with rfl | he
      · exact .inr (List.mem_append_left _ hd)
      · rcases h e he d hd with hd | hd
        · exact .inl (List.mem_cons_of_mem _ hd)
        · rcases List.mem_cons.mp hd with rfl | hd
          · exact .inl List.mem_cons_self
          · exact .inr (List.mem_append_right _ hd)
    obtain ⟨hall, hclosed⟩ := ih hpending
    -- the class itself moves from the entered ones to the found ones
    have hmove : ∀ e, e ∈ c :: entered ∨ e ∈ r.walk (c :: entered) (r.above c ++ pending) ↔
        e ∈ entered ∨ e ∈ c :: r.walk (c :: entered) (r.above c ++ pending) := by
      intro e
      simp only [List.mem_cons]
      tauto
    simp only [hmove] at hall hclosed
    refine ⟨?_, hclosed⟩
    intro p hp
    rcases List.mem_cons.mp hp with rfl | hp
    · exact .inr List.mem_cons_self
    · exact hall p (List.mem_append_right _ hp)

/-- The ancestors of a class are the classes that it reaches. -/
theorem mem_ancestors_iff {c d : ClassName} :
    d ∈ r.ancestors c ↔ Relation.ReflTransGen r.Under c d := by
  constructor
  · intro hd
    obtain ⟨p, hp, hreach⟩ := r.reached_of_mem_walk hd
    obtain rfl := List.mem_singleton.mp hp
    exact hreach
  · intro hreach
    obtain ⟨hstart, hclosed⟩ := @walk_closed r [] [c] (by simp)
    simp only [List.not_mem_nil, false_or] at hstart hclosed
    induction hreach with
    | refl => exact hstart c List.mem_cons_self
    | tail _ hunder ih => exact hclosed _ ih _ hunder

theorem mem_ancestors_self (c : ClassName) : c ∈ r.ancestors c := r.mem_ancestors_iff.mpr .refl

theorem mem_ancestors_trans {a b c : ClassName} (hab : b ∈ r.ancestors a)
    (hbc : c ∈ r.ancestors b) :
    c ∈ r.ancestors a :=
  r.mem_ancestors_iff.mpr ((r.mem_ancestors_iff.mp hab).trans (r.mem_ancestors_iff.mp hbc))

/-! ### Common ancestors -/

theorem mem_sharedAncestors {classes : List ClassName} (hne : classes ≠ []) {a : ClassName} :
    a ∈ r.sharedAncestors classes ↔ ∀ c ∈ classes, a ∈ r.ancestors c := by
  cases classes with
  | nil => exact absurd rfl hne
  | cons c classes => simp [sharedAncestors]

theorem mem_lowest {candidates : List ClassName} {c : ClassName} :
    c ∈ r.lowest candidates ↔ c ∈ candidates ∧ ∀ d ∈ candidates, d ≠ c → c ∉ r.ancestors d := by
  simp [lowest]

/-- Without cycles every member of a list is above a lowest one, or is lowest itself. -/
theorem exists_lowest (hacyclic : r.Acyclic) {candidates : List ClassName} {a : ClassName}
    (ha : a ∈ candidates) : ∃ c ∈ r.lowest candidates, a ∈ r.ancestors c := by
  let Below (c d : { c // c ∈ candidates }) : Prop := Relation.TransGen r.Under c.1 d.1
  have : IsTrans _ Below := ⟨fun _ _ _ => Relation.TransGen.trans⟩
  have : Std.Irrefl Below := ⟨fun c => hacyclic c.1⟩
  have hwf : WellFounded Below := Finite.wellFounded_of_trans_of_irrefl Below
  -- going down from member to member ends at one that has no other below it
  suffices h : ∀ c : { c // c ∈ candidates }, ∃ d ∈ r.lowest candidates,
      c.1 ∈ r.ancestors d from h ⟨a, ha⟩
  intro c
  induction c using hwf.induction with
  | h c ih =>
    by_cases hlowest : c.1 ∈ r.lowest candidates
    · exact ⟨c.1, hlowest, r.mem_ancestors_self c.1⟩
    · simp only [mem_lowest, c.2, true_and, not_forall, not_not] at hlowest
      obtain ⟨d, hd, hne, habove⟩ := hlowest
      have hbelow : Relation.TransGen r.Under d c.1 := by
        rcases Relation.reflTransGen_iff_eq_or_transGen.mp (r.mem_ancestors_iff.mp habove)
          with heq | h
        · exact absurd heq.symm hne
        · exact h
      obtain ⟨e, he, hde⟩ := ih ⟨d, hd⟩ hbelow
      exact ⟨e, he, r.mem_ancestors_trans hde habove⟩

/-- An only lowest common ancestor is below every common ancestor. -/
theorem least_of_lowest (hacyclic : r.Acyclic) {classes : List ClassName} {c : ClassName}
    (hne : classes ≠ []) (hlowest : r.lowest (r.sharedAncestors classes) = [c]) :
    (∀ d ∈ classes, c ∈ r.ancestors d) ∧
      ∀ a, (∀ d ∈ classes, a ∈ r.ancestors d) → a ∈ r.ancestors c := by
  constructor
  · have hc : c ∈ r.lowest (r.sharedAncestors classes) := by
      rw [hlowest]; exact List.mem_singleton_self c
    exact (r.mem_sharedAncestors hne).mp (r.mem_lowest.mp hc).1
  · intro a ha
    obtain ⟨d, hd, had⟩ := r.exists_lowest hacyclic ((r.mem_sharedAncestors hne).mpr ha)
    rw [hlowest, List.mem_singleton] at hd
    rwa [hd] at had

theorem exists_of_commonAncestor {classes : List ClassName}
    (h : (r.commonAncestor classes).isResolved = true) :
    ∃ c, classes ≠ [] ∧ r.lowest (r.sharedAncestors classes) = [c] ∧
      r.commonAncestor classes = .ofClassText c.text := by
  unfold commonAncestor at h ⊢
  split at h
  · cases h
  · next hne =>
    rw [if_neg hne]
    split at h
    · next c hlowest =>
      rw [hlowest]
      exact ⟨c, hne, rfl, rfl⟩
    · cases h

end SignatureInference.Registry
