import SignatureInference.Proofs.Registry.Ancestors
import SignatureInference.Proofs.Registry.DepthFirst

/-! # Least common ancestors

Without cycles, the only lowest common ancestor is the one that all others are above. It does not
depend on the order of the classes.
-/
namespace SignatureInference.Registry

variable (r : Registry)

/-- The class is above all the given ones, or among them, and every other such class is above it. -/
structure LeastCommon (classes : List ClassName) (c : ClassName) : Prop where
  common : ∀ d ∈ classes, c ∈ r.ancestors d
  least : ∀ a, (∀ d ∈ classes, a ∈ r.ancestors d) → a ∈ r.ancestors c

theorem nodup_ancestors (c : ClassName) : (r.ancestors c).Nodup := (r.visits_walk [] [c]).nodup.2

theorem nodup_lowest (classes : List ClassName) : (r.lowest (r.sharedAncestors classes)).Nodup := by
  refine List.Nodup.filter _ ?_
  cases classes with
  | nil => exact List.nodup_nil
  | cons c classes => exact (r.nodup_ancestors c).filter _

variable {r}

theorem Acyclic.antisymm (hacyclic : r.Acyclic) {a b : ClassName} (hab : b ∈ r.ancestors a)
    (hba : a ∈ r.ancestors b) : a = b := by
  rcases Relation.reflTransGen_iff_eq_or_transGen.mp (r.mem_ancestors_iff.mp hab) with heq | hup
  · exact heq.symm
  · exact absurd (hup.trans_left (r.mem_ancestors_iff.mp hba)) (hacyclic a)

section

variable (hacyclic : r.Acyclic) {classes : List ClassName} (hne : classes ≠ [])

include hacyclic hne

theorem lowest_eq_singleton_iff {c : ClassName} :
    r.lowest (r.sharedAncestors classes) = [c] ↔ r.LeastCommon classes c := by
  constructor
  · intro h
    obtain ⟨hcommon, hleast⟩ := r.least_of_lowest hacyclic hne h
    exact ⟨hcommon, hleast⟩
  · intro h
    have hmem : ∀ d, d ∈ r.lowest (r.sharedAncestors classes) ↔ d ∈ [c] := by
      intro d
      rw [List.mem_singleton, mem_lowest, r.mem_sharedAncestors hne]
      constructor
      · rintro ⟨hd, hlowest⟩
        by_contra hdc
        exact hlowest c ((r.mem_sharedAncestors hne).mpr h.common) (Ne.symm hdc) (h.least d hd)
      · rintro rfl
        refine ⟨h.common, fun e he hed habove => hed ?_⟩
        exact hacyclic.antisymm habove (h.least e ((r.mem_sharedAncestors hne).mp he))
    exact List.perm_singleton.mp
      ((List.perm_ext_iff_of_nodup (r.nodup_lowest classes) (List.nodup_singleton c)).mpr hmem)

theorem commonAncestor_of_leastCommon {c : ClassName} (h : r.LeastCommon classes c) :
    r.commonAncestor classes = .ofClassText c.text := by
  rw [commonAncestor, if_neg hne, (lowest_eq_singleton_iff hacyclic hne).mpr h]

theorem commonAncestor_of_not_exists (h : ¬∃ c, r.LeastCommon classes c) :
    r.commonAncestor classes =
      .unresolvedWith .inconsistent s!"no single common ancestor of {classes.length} classes" := by
  rw [commonAncestor, if_neg hne]
  split
  · next c hlowest => exact absurd ⟨c, (lowest_eq_singleton_iff hacyclic hne).mp hlowest⟩ h
  · rfl

omit hacyclic hne in
theorem leastCommon_congr {classes' : List ClassName} (h : ∀ d, d ∈ classes' ↔ d ∈ classes)
    (c : ClassName) :
    r.LeastCommon classes' c ↔ r.LeastCommon classes c := by
  constructor
  · rintro ⟨hcommon, hleast⟩
    simp only [h] at hcommon hleast
    exact ⟨hcommon, hleast⟩
  · rintro ⟨hcommon, hleast⟩
    simp only [← h] at hcommon hleast
    exact ⟨hcommon, hleast⟩

theorem commonAncestor_perm {classes' : List ClassName} (hperm : classes'.Perm classes) :
    r.commonAncestor classes' = r.commonAncestor classes := by
  have hne' : classes' ≠ [] := by
    rintro rfl
    exact hne hperm.nil_eq.symm
  have hsame : ∀ c, r.LeastCommon classes' c ↔ r.LeastCommon classes c :=
    leastCommon_congr fun d => hperm.mem_iff
  by_cases hleast : ∃ c, r.LeastCommon classes c
  · obtain ⟨c, hc⟩ := hleast
    rw [commonAncestor_of_leastCommon hacyclic hne hc,
      commonAncestor_of_leastCommon hacyclic hne' ((hsame c).mpr hc)]
  · rw [commonAncestor_of_not_exists hacyclic hne hleast,
      commonAncestor_of_not_exists hacyclic hne' (by simpa only [hsame] using hleast),
      hperm.length_eq]

end

end SignatureInference.Registry
