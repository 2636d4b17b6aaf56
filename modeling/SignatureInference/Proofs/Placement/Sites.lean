import SignatureInference.Proofs.Placement.Insertion
import SignatureInference.Proofs.Source.MaskInsertion

/-! # Sites

A site keeps what is needed of it when a type is put at another site, and masking a source with a
type at a site gives the masked source with the type at that site. So types can be put at several
sites one after another.
-/
namespace SignatureInference.Placement

open Text Source

variable {σ τ : Seam}

theorem anglesStop_left : AnglesStop σ.left := by
  have hangle : '<' ∉ σ.stop :: σ.lead := by
    refine List.not_mem_cons_of_ne_of_not_mem ?_ (Seam.not_mem_lead (by decide) (by decide))
    rcases isStop_cases σ.isStop_stop with h | h | h <;> rw [h] <;> decide
  intro u v he
  refine ⟨σ.stop, ?_, σ.isStop_stop⟩
  rcases List.append_eq_append_iff.mp he with ⟨w, -, hw⟩ | ⟨w, -, hw⟩
  · exact absurd (hw ▸ by simp) hangle
  · cases w with
    | nil => exact absurd (List.mem_cons.mpr (.inl (List.cons.inj hw).1)) hangle
    | cons d w =>
      rw [(List.cons.inj hw).2]
      simp

/-- Masking passes over a type that is put at a site. -/
theorem mask?_insert (hσ : Site σ) {source : List Char} (h : mask? source = some σ.before)
    (hclear : ∀ c ∈ (takeBytes σ.place source).getLast?, isIdentPart c = false) :
    ∃ x y, source = x ++ y ∧ byteLength x = σ.place ∧
      mask? (x ++ (σ.inserted ++ y)) = some σ.after := by
  cases hσ with
  | parameter hstop hlead hgap hedge hrest htype =>
    have hne : σ.edge ≠ ' ' := by
      rcases isEdge_cases σ.isEdge_edge with h | h | h | h | h <;> rw [h] <;> decide
    have hbefore : σ.before = σ.left ++ σ.edge :: σ.rest := by simp [Seam.before, Seam.right, hgap]
    rw [hbefore] at h
    obtain ⟨x, r, inks, rfl, hlen, hr, -⟩ := exists_of_maskFrom? hne h
    have hr : r ≠ [] := by
      rintro rfl
      simp only [maskFrom?, Option.some.injEq] at hr
      exact hrest hr.symm
    have hplace : σ.place = byteLength x := hlen.symm
    rw [hplace, takeBytes_byteLength] at hclear
    refine ⟨x, σ.edge :: r, rfl, hlen, ?_⟩
    have hinsert := maskFrom?_beside false hedge σ.inert hr (.same (Nat.zero_le _))
      (fun _ => hclear) (fun _ => anglesStop_left) h hlen.symm
    simpa [mask?, beside, Seam.after, Seam.right, hgap] using hinsert
  | result hstop hlead htype =>
    have hbefore : σ.before = σ.front ++ ')' :: σ.right := by
      simp [Seam.before, Seam.left, hstop, hlead]
    rw [hbefore] at h
    obtain ⟨x, r, inks, rfl, hlen, hr, -⟩ := exists_of_maskFrom? (by decide) h
    have hr : r ≠ [] := by
      rintro rfl
      simp [maskFrom?, Seam.right] at hr
    refine ⟨x ++ [')'], r, by simp, by simp [Seam.place, Seam.left, hstop, hlead, hlen], ?_⟩
    have hinsert := maskFrom?_beside true (by decide) σ.inert hr (.same (Nat.zero_le _))
      (fun hb => by cases hb) (fun hb => by cases hb) h hlen.symm
    simpa [mask?, beside, Seam.after, Seam.left, hstop, hlead] using hinsert

/-! ## Two sites -/

theorem exists_front_of_place_lt (hσ : Site σ) (hτ : Site τ) (h : σ.before = τ.before)
    (hlt : τ.place < σ.place) : ∃ w, σ.front = τ.left ++ w := by
  obtain ⟨w, hw, hright⟩ := exists_append_of_byteLength_le h.symm hlt.le
  have hsplit : σ.front ++ σ.stop :: σ.lead = τ.left ++ w := hw
  rcases List.append_eq_append_iff.mp hsplit with ⟨l, hl, he⟩ | ⟨l, hl, -⟩
  · cases l with
    | nil => exact ⟨[], by simpa using hl.symm⟩
    | cons d l =>
      obtain ⟨rfl, hlead⟩ := List.cons.inj he
      -- the first site would lie between the stop and the second one
      have hplain : ∀ c ∈ l ++ w, isBlank c = true ∨ isWordChar c = true := fun c hc =>
        σ.lead_plain c (hlead ▸ hc)
      have hne : w ≠ [] := by
        rintro rfl
        rw [List.append_nil] at hw
        unfold Seam.place at hlt
        rw [hw] at hlt
        omega
      exfalso
      cases hτ with
      | parameter _ _ hgap hedge _ _ =>
        obtain ⟨x, xs, rfl⟩ := List.exists_cons_of_ne_nil hne
        rw [Seam.right, hgap, List.nil_append, List.cons_append] at hright
        have hx := hplain τ.edge (by rw [(List.cons.inj hright).1]; simp)
        rcases isCode_cases hedge with h | h | h | h <;> rw [h] at hx <;>
          exact absurd hx (by decide +kernel)
      | result hstop hnil _ =>
        rw [Seam.left, hstop, hnil] at hl
        rcases List.eq_nil_or_concat' l with rfl | ⟨l', x, rfl⟩
        · have hclose : σ.stop = ')' :=
            (List.cons.inj (List.append_inj_right' hl rfl)).1.symm
          cases hσ with
          | parameter h => exact h hclose
          | result _ hlead' _ => exact hne (hlead.symm.trans hlead')
        · rw [← List.cons_append, ← List.append_assoc] at hl
          have hx : ')' = x := (List.cons.inj (List.append_inj_right' hl rfl)).1
          exact absurd (hplain ')' (by rw [← hx]; simp)) (by decide +kernel)
  · exact ⟨l, hl⟩

theorem silent_stop {pattern : Option Char → List Char → Option Found} (h : IsHeader pattern)
    {previous : Option Char} {t u : List Char} {s : Char} (hs : isStop s = true)
    (hsilent : Silent pattern previous t (u ++ [s])) (z : List Char) :
    Silent pattern previous t (u ++ s :: z) := by
  intro v w he hne
  have hnone := hsilent v w he hne
  rw [← List.append_assoc] at hnone ⊢
  rw [h.stop hs, hnone]
  rfl

/-- What a site needs does not depend on the text far in front of it and far behind it. -/
theorem Site.congr (hτ : Site τ) {ρ : Seam} (hstop : ρ.stop = τ.stop) (hlead : ρ.lead = τ.lead)
    (hinserted : ρ.inserted = τ.inserted) (hgap : ρ.gap = τ.gap) (hedge : ρ.edge = τ.edge)
    (hrest : τ.rest ≠ [] → ρ.rest ≠ []) : Site ρ := by
  cases hτ with
  | parameter h₁ h₂ h₃ h₄ h₅ h₆ =>
    exact .parameter (hstop ▸ h₁) (hlead ▸ h₂) (hgap.trans h₃) (hedge ▸ h₄) (hrest h₅)
      (hinserted ▸ h₆)
  | result h₁ h₂ h₃ => exact .result (hstop.trans h₁) (hlead.trans h₂) (hinserted ▸ h₃)

theorem exists_site_behind (hσ : Site σ) (hτ : Site τ) (h : σ.before = τ.before)
    (hlt : σ.place < τ.place) :
    ∃ ρ : Seam, Site ρ ∧ ρ.before = σ.after ∧ ρ.place = σ.move τ.place ∧
      ρ.inserted = τ.inserted := by
  obtain ⟨w, hw⟩ := exists_front_of_place_lt hτ hσ h.symm hlt
  have hbefore : τ.before = σ.left ++ (w ++ τ.stop :: (τ.lead ++ τ.right)) := by
    rw [Seam.before, Seam.left, hw]
    simp only [List.append_assoc, List.cons_append]
  have hright : σ.right = w ++ τ.stop :: (τ.lead ++ τ.right) :=
    List.append_cancel_left (h.trans hbefore)
  refine ⟨{ τ with front := σ.left ++ (σ.inserted ++ w) }, hτ.congr rfl rfl rfl rfl rfl id,
    ?_, ?_, rfl⟩
  · change σ.left ++ (σ.inserted ++ w) ++ τ.stop :: τ.lead ++ τ.right =
      σ.left ++ (σ.inserted ++ σ.right)
    rw [hright]
    simp only [List.append_assoc, List.cons_append]
  · have hplace : τ.place = σ.place + (byteLength w + byteLength (τ.stop :: τ.lead)) := by
      rw [Seam.place, Seam.left, hw, byteLength_append, byteLength_append, Seam.place]
      omega
    rw [Seam.move_of_le hlt.le, hplace]
    change byteLength (σ.left ++ (σ.inserted ++ w) ++ τ.stop :: τ.lead) = _
    simp only [byteLength_append, Seam.place]
    omega

theorem exists_site_in_front (hσ : Site σ) (hτ : Site τ) (h : σ.before = τ.before)
    (hlt : τ.place < σ.place) :
    ∃ ρ : Seam, Site ρ ∧ ρ.before = σ.after ∧ ρ.place = σ.move τ.place ∧
      ρ.inserted = τ.inserted := by
  obtain ⟨w, hw⟩ := exists_front_of_place_lt hσ hτ h hlt
  have hbefore : σ.before = τ.left ++ (w ++ σ.stop :: (σ.lead ++ σ.right)) := by
    rw [Seam.before, Seam.left, hw]
    simp only [List.append_assoc, List.cons_append]
  have hright : τ.right = w ++ σ.stop :: (σ.lead ++ σ.right) :=
    List.append_cancel_left (h.symm.trans hbefore)
  -- the edge of the first site stands in front of the stop of the second one
  have hedge : σ.stop ≠ τ.edge := by
    intro he
    have := σ.isStop_stop
    rcases isEdge_cases τ.isEdge_edge with h | h | h | h | h <;> rw [he, h] at this <;>
      exact absurd this (by decide)
  obtain ⟨y, rfl, hrest⟩ := Seam.exists_edge hright (isBlank_of_isStop σ.isStop_stop) hedge
  refine ⟨{ τ with
    rest := y ++ σ.stop :: (σ.lead ++ (σ.inserted ++ σ.right))
    inserted_silent := ?_ }, hτ.congr rfl rfl rfl rfl rfl (fun _ => by simp), ?_, ?_, rfl⟩
  · intro pattern hpattern z hz
    have hstop : y ++ [σ.stop] <+: y ++ σ.stop :: (σ.lead ++ (σ.inserted ++ σ.right)) := by simp
    have hold : y ++ [σ.stop] <+: τ.rest := by rw [hrest]; simp
    rcases List.prefix_or_prefix_of_prefix hz hstop with hz | ⟨z, rfl⟩
    · exact τ.inserted_silent pattern hpattern z (hz.trans hold)
    · have hsilent := τ.inserted_silent pattern hpattern _ hold
      rw [← List.cons_append, ← List.append_assoc] at hsilent
      simpa using silent_stop hpattern σ.isStop_stop hsilent z
  · change τ.left ++ (τ.gap ++ τ.edge :: (y ++ σ.stop :: (σ.lead ++ (σ.inserted ++ σ.right)))) =
      σ.left ++ (σ.inserted ++ σ.right)
    rw [show σ.left = σ.front ++ σ.stop :: σ.lead from rfl, hw]
    simp only [List.append_assoc, List.cons_append]
  · rw [Seam.move_of_lt hlt]
    rfl

/-- A site stays one when a type is put at another site of the same source. -/
theorem exists_site (hσ : Site σ) (hτ : Site τ) (h : σ.before = τ.before)
    (hne : τ.place ≠ σ.place) :
    ∃ ρ : Seam, Site ρ ∧ ρ.before = σ.after ∧ ρ.place = σ.move τ.place ∧
      ρ.inserted = τ.inserted := by
  rcases Nat.lt_or_gt_of_ne hne with hlt | hlt
  · exact exists_site_in_front hσ hτ h hlt
  · exact exists_site_behind hσ hτ h hlt

end SignatureInference.Placement
