import SignatureInference.Proofs.ClassSegments
import SignatureInference.Proofs.Decision.Growth
import SignatureInference.Proofs.Decision.Order
import SignatureInference.Proofs.Registry.LeastAncestor

/-! # Widening

Differing types are widened to the least common ancestor of their classes. Only the first
observation of each name is asked for its class, so that a scalar goes unnoticed behind an object of
a class with its name.
-/
namespace SignatureInference

namespace Registry

variable {r : Registry} (hacyclic : r.Acyclic) {classes : List ClassName} (hne : classes ≠ [])
  (hnames : r.WellNamed) (hwell : ∀ d ∈ classes, d.WellFormed)

include hnames hwell

include hne in
theorem LeastCommon.wellFormed {c : ClassName} (h : r.LeastCommon classes c) : c.WellFormed := by
  obtain ⟨d, hd⟩ := List.exists_mem_of_ne_nil classes hne
  exact hnames.of_mem_ancestors (hwell d hd) (h.common d hd)

include hacyclic hne in
/-- The common ancestor is the type of a class exactly if that is the least common ancestor. -/
theorem commonAncestor_eq_ofClass_iff {c : ClassName} :
    c.WellFormed ∧ r.commonAncestor classes = .ofClass c ↔ r.LeastCommon classes c := by
  have htype : ∀ {d}, r.LeastCommon classes d → r.commonAncestor classes = .ofClass d := by
    intro d hd
    rw [commonAncestor_of_leastCommon hacyclic hne hd, TypeValue.ofClassText,
      ClassName.ofText_text (hd.wellFormed hne hnames hwell)]
  constructor
  · rintro ⟨hc, hcommon⟩
    by_cases hleast : ∃ d, r.LeastCommon classes d
    · obtain ⟨d, hd⟩ := hleast
      rw [htype hd] at hcommon
      have hname := congrArg TypeValue.name hcommon
      rw [TypeValue.name_ofClass hc, TypeValue.name_ofClass (hd.wellFormed hne hnames hwell)]
        at hname
      have heq : d = c := by
        cases d
        cases c
        rw [ClassName.mk.injEq]
        exact hname
      exact heq ▸ hd
    · rw [commonAncestor_of_not_exists hacyclic hne hleast] at hcommon
      cases hcommon
  · intro h
    exact ⟨h.wellFormed hne hnames hwell, htype h⟩

end Registry

namespace TypeValue

theorem takesPart_of_className? {t : TypeValue} {c : ClassName} (h : t.className? = some c) :
    t.takesPart = true := by
  obtain ⟨shape, nullable⟩ := t
  cases shape with
  | object space name => rfl
  | scalar kind => cases h
  | unresolved reason note => cases h

theorem className?_of_name_builtin {t u : TypeValue} (hu : u.isBuiltin = true)
    (hname : t.name = u.name) :
    t.className? = none := by
  have hbare : ∃ name, u.shape = .object "" name ∧ '\\' ∉ name.toList := by
    obtain ⟨shape, nullable⟩ := u
    cases shape with
    | scalar kind => cases hu
    | unresolved reason note => cases hu
    | object space name =>
      simp only [isBuiltin, Bool.and_eq_true, Bool.or_eq_true, beq_iff_eq] at hu
      obtain ⟨rfl, rfl | rfl⟩ := hu
      · exact ⟨_, rfl, by decide⟩
      · exact ⟨_, rfl, by decide⟩
  obtain ⟨name, hshape, hslash⟩ := hbare
  obtain ⟨shape, nullable⟩ := t
  cases shape with
  | scalar kind => rfl
  | unresolved reason note => rfl
  | object space' name' =>
    rw [TypeValue.name, TypeValue.name, hshape] at hname
    simp only [beq_self_eq_true, if_true] at hname
    split at hname
    · next hspace =>
      -- the same object
      rw [className?_of_isBuiltin]
      rw [isBuiltin, hshape] at hu
      rw [isBuiltin, hname]
      simpa [beq_iff_eq.mp hspace] using hu
    · rw [← hname] at hslash
      simp at hslash

end TypeValue

namespace Decision

variable {r : Registry} {observed : List TypeValue}

theorem exists_value_of_counted {t : TypeValue} (ht : t ∈ counted observed) :
    ∃ v ∈ (distinct observed).values, v.name = t.name := by
  obtain ⟨v, hv⟩ : ∃ v, (counted observed).find? (·.name = t.name) = some v := by
    rw [← Option.isSome_iff_exists, List.find?_isSome]
    exact ⟨t, ht, by simp⟩
  have hname : v.name = t.name := by simpa using List.find?_some hv
  exact ⟨v, mem_values_distinct.mpr (by rwa [hname]), hname⟩

theorem exists_values_of_disagree (h : Disagree observed) :
    ∃ a b rest, (distinct observed).values = a :: b :: rest := by
  obtain ⟨t, ht, u, hu, hne⟩ := h
  obtain ⟨v, hv, hvt⟩ := exists_value_of_counted ht
  obtain ⟨w, hw, hwu⟩ := exists_value_of_counted hu
  cases hvalues : (distinct observed).values with
  | nil =>
    rw [hvalues] at hv
    cases hv
  | cons a rest =>
    cases rest with
    | nil =>
      rw [hvalues, List.mem_singleton] at hv hw
      rw [hv] at hvt
      rw [hw] at hwu
      exact absurd (hvt.symm.trans hwu) hne
    | cons b rest => exact ⟨a, b, rest, rfl⟩

theorem inconsistent_of_classless (hdisagree : Disagree observed) {u : TypeValue}
    (hu : u ∈ (distinct observed).values) (hclass : u.className? = none) :
    ofObservations r true observed = .inconsistent (distinct observed).keys := by
  obtain ⟨a, b, rest, hvalues⟩ := exists_values_of_disagree hdisagree
  rw [ofObservations_several hvalues, if_pos rfl]
  cases hwidened : widened? r (a :: b :: rest) with
  | none => rfl
  | some type =>
    obtain ⟨classes, hclasses, -⟩ := exists_of_widened? hwidened
    have hmem : u.className? ∈ classes.map some := hclasses ▸ List.mem_map_of_mem (hvalues ▸ hu)
    rw [hclass] at hmem
    simp at hmem

/-- An observation without a class conflicts with others, unless one with a class was taken in its
place. -/
theorem inconsistent_of_first_classless (hdisagree : Disagree observed)
    {front rest : List TypeValue} {u : TypeValue} (hobserved : observed = front ++ u :: rest)
    (hu : u.takesPart = true) (hclass : u.className? = none)
    (hfront : ∀ v ∈ front, v.name = u.name → v.className? = none) :
    ofObservations r true observed = .inconsistent (distinct observed).keys := by
  have hcounted : counted observed = counted front ++ u :: counted rest := by
    rw [hobserved, counted_append]
    exact congrArg (counted front ++ ·) (List.filter_cons_of_pos hu)
  have hmem : u ∈ counted observed := by
    rw [hcounted]
    simp
  obtain ⟨v, hv, hname⟩ := exists_value_of_counted hmem
  refine inconsistent_of_classless hdisagree hv ?_
  rw [mem_values_distinct, hcounted, List.find?_append] at hv
  cases hfind : (counted front).find? (·.name = v.name) with
  | some w =>
    rw [hfind, Option.some_or, Option.some.injEq] at hv
    subst hv
    exact hfront w (mem_of_mem_counted (List.mem_of_find?_eq_some hfind)) hname
  | none =>
    rw [hfind, Option.none_or, List.find?_cons_of_pos (by simpa using hname.symm),
      Option.some.injEq] at hv
    rwa [← hv]

theorem inconsistent_of_builtin (hdisagree : Disagree observed) {u : TypeValue} (hu : u ∈ observed)
    (hbuiltin : u.isBuiltin = true) :
    ofObservations r true observed = .inconsistent (distinct observed).keys := by
  have htakes : u.takesPart = true := by
    obtain ⟨shape, nullable⟩ := u
    cases shape with
    | object space name => rfl
    | scalar kind => cases hbuiltin
    | unresolved reason note => cases hbuiltin
  obtain ⟨v, hv, hname⟩ := exists_value_of_counted (List.mem_filter.mpr ⟨hu, htakes⟩)
  exact inconsistent_of_classless hdisagree hv (TypeValue.className?_of_name_builtin hbuiltin hname)

section

variable (hacyclic : r.Acyclic) (hnames : r.WellNamed)
  (hwell : ∀ t ∈ observed, ∀ c ∈ t.className?, c.WellFormed)

include hwell

theorem mem_classes_iff {classes : List ClassName}
    (hclasses : (distinct observed).values.map (·.className?) = classes.map some) (c : ClassName) :
    c ∈ classes ↔ c ∈ observed.filterMap (·.className?) := by
  have hvalue : ∀ {d : ClassName}, d ∈ classes ↔
      ∃ v ∈ (distinct observed).values, v.className? = some d := by
    intro d
    have hiff : some d ∈ (distinct observed).values.map (·.className?) ↔
        some d ∈ classes.map some := by
      rw [hclasses]
    simpa using hiff.symm
  rw [List.mem_filterMap, hvalue]
  constructor
  · rintro ⟨v, hv, hc⟩
    exact ⟨v, mem_of_mem_counted (mem_counted_of_mem_values hv), hc⟩
  · rintro ⟨t, ht, hc⟩
    have hcounted : t ∈ counted observed :=
      List.mem_filter.mpr ⟨ht, TypeValue.takesPart_of_className? hc⟩
    obtain ⟨v, hv, hname⟩ := exists_value_of_counted hcounted
    obtain ⟨d, -, hd⟩ :=
      List.mem_map.mp (hclasses ▸ List.mem_map_of_mem hv : v.className? ∈ classes.map some)
    have hvd : v.className? = some d := hd.symm
    have heq := TypeValue.className_eq_of_name hvd hc
      (hwell v (mem_of_mem_counted (mem_counted_of_mem_values hv)) d hvd) (hwell t ht c hc) hname
    exact ⟨v, hv, heq ▸ hvd⟩

include hacyclic hnames

/-- What differing observations decide on is the least common ancestor of all their classes. -/
theorem exists_leastCommon_of_decided (hdisagree : Disagree observed) {t : TypeValue}
    (h : ofObservations r true observed = .decided t) :
    ∃ c, (t = .ofClass c ∨ t = (TypeValue.ofClass c).orNull) ∧
      r.LeastCommon (observed.filterMap (·.className?)) c := by
  obtain ⟨type, rfl, hvalues | ⟨-, hwidened⟩⟩ := exists_of_decided h
  · obtain ⟨a, b, rest, hseveral⟩ := exists_values_of_disagree hdisagree
    rw [hseveral] at hvalues
    cases hvalues
  · obtain ⟨classes, hclasses, rfl, hresolved⟩ := exists_of_widened? hwidened
    obtain ⟨c, hne, hlowest, -⟩ := r.exists_of_commonAncestor hresolved
    have hmem := mem_classes_iff hwell hclasses
    have hleast := (Registry.lowest_eq_singleton_iff hacyclic hne).mp hlowest
    have hformed : ∀ d ∈ classes, d.WellFormed := by
      intro d hd
      obtain ⟨u, hu, hclass⟩ := List.mem_filterMap.mp ((hmem d).mp hd)
      exact hwell u hu d hclass
    obtain ⟨-, htype⟩ :=
      (Registry.commonAncestor_eq_ofClass_iff hacyclic hne hnames hformed).mpr hleast
    refine ⟨c, ?_, (Registry.leastCommon_congr (fun d => (hmem d).symm) c).mpr hleast⟩
    rw [htype]
    split
    · exact .inr rfl
    · exact .inl rfl

end

/-- Widening finds the least common ancestor and nothing else, in any order of the classes. With two
names or more, a type that is decided is the least common ancestor of all observed classes. Nothing
is decided if one of the names is that of a built-in type, or if an observation without a class is
the first of its name. -/
theorem widens_to_least (r : Registry) (hacyclic : r.Acyclic) (hnames : r.WellNamed) :
    (∀ classes : List ClassName, classes ≠ [] → (∀ c ∈ classes, c.WellFormed) →
      (∀ c, c.WellFormed ∧ r.commonAncestor classes = .ofClass c ↔ r.LeastCommon classes c) ∧
      ((¬∃ c, r.LeastCommon classes c) → r.commonAncestor classes =
        .unresolvedWith .inconsistent s!"no single common ancestor of {classes.length} classes") ∧
      ∀ classes', classes'.Perm classes → r.commonAncestor classes' = r.commonAncestor classes) ∧
    ∀ observed : List TypeValue, (∀ t ∈ observed, ∀ c ∈ t.className?, c.WellFormed) →
      Disagree observed →
      (∀ t, ofObservations r true observed = .decided t →
        ∃ c, (t = .ofClass c ∨ t = (TypeValue.ofClass c).orNull) ∧
          r.LeastCommon (observed.filterMap (·.className?)) c) ∧
      (∀ front u rest, observed = front ++ u :: rest → u.takesPart = true → u.className? = none →
        (∀ v ∈ front, v.name = u.name → v.className? = none) →
          ofObservations r true observed = .inconsistent (distinct observed).keys) ∧
      ((∃ u ∈ observed, u.isBuiltin = true) →
        ofObservations r true observed = .inconsistent (distinct observed).keys) := by
  constructor
  · intro classes hne hwell
    exact ⟨fun c => Registry.commonAncestor_eq_ofClass_iff hacyclic hne hnames hwell,
      Registry.commonAncestor_of_not_exists hacyclic hne,
      fun classes' => Registry.commonAncestor_perm hacyclic hne⟩
  · intro observed hwell hdisagree
    refine ⟨fun t => exists_leastCommon_of_decided hacyclic hnames hwell hdisagree, ?_, ?_⟩
    · intro front u rest hobserved hu hclass hfront
      exact inconsistent_of_first_classless hdisagree hobserved hu hclass hfront
    · rintro ⟨u, hu, hbuiltin⟩
      exact inconsistent_of_builtin hdisagree hu hbuiltin

theorem widens_to_least_figures :
    let seen : List TypeValue := [.object "" "Square", (TypeValue.object "" "Triangle").orNull,
      .object "" "Square"]
    figures.Acyclic ∧ figures.WellNamed ∧ (∀ t ∈ seen, ∀ c ∈ t.className?, c.WellFormed) ∧
    Disagree seen ∧
      ofObservations figures true seen = .decided (TypeValue.object "" "Polygon").orNull ∧
      ∃ c, ((TypeValue.object "" "Polygon").orNull = .ofClass c ∨
          (TypeValue.object "" "Polygon").orNull = (TypeValue.ofClass c).orNull) ∧
        figures.LeastCommon (seen.filterMap (·.className?)) c := by
  intro seen
  have hwell : ∀ t ∈ seen, ∀ c ∈ t.className?, c.WellFormed := by decide +kernel
  have hdisagree : Disagree seen := ⟨.object "" "Square", by decide,
    (TypeValue.object "" "Triangle").orNull, by decide, by decide⟩
  have hclasses : widened? figures [.object "" "Square", (TypeValue.object "" "Triangle").orNull] =
      widened? figures [.object "" "Square", .object "" "Triangle"] :=
    widened?_congr rfl
  have hdecided : ofObservations figures true seen =
      .decided (TypeValue.object "" "Polygon").orNull :=
    ofObservations_of_widened? (by decide +kernel) (hclasses.trans widened?_figures.1)
  obtain ⟨-, hobserved⟩ := widens_to_least figures acyclic_figures wellNamed_figures
  exact ⟨acyclic_figures, wellNamed_figures, hwell, hdisagree, hdecided,
    (hobserved seen hwell hdisagree).1 _ hdecided⟩

/-- A class with the name of a scalar type, and another one, under a third. -/
def namesakes : Registry :=
  [({ name := ⟨"string"⟩, interfaces := [⟨"Shape"⟩] } : ClassInfo),
   { name := ⟨"Circle"⟩, interfaces := [⟨"Shape"⟩] }].foldl Registry.addClass {}

theorem widened?_namesakes :
    widened? namesakes [.object "" "Circle", .object "" "string"] = some (.object "" "Shape") := by
  have habove : namesakes.above ⟨"Shape"⟩ = [] ∧ namesakes.above ⟨"string"⟩ = [⟨"Shape"⟩] ∧
      namesakes.above ⟨"Circle"⟩ = [⟨"Shape"⟩] := by
    decide +kernel
  have hlowest : namesakes.lowest (namesakes.sharedAncestors [⟨"Circle"⟩, ⟨"string"⟩]) =
      [⟨"Shape"⟩] := by
    simp [Registry.lowest, Registry.sharedAncestors, Registry.ancestors, Registry.walk, habove]
  exact (widened?_of_lowest (by decide +kernel) (by simp) hlowest).trans (by decide +kernel)

/-- A string goes unnoticed behind an object of a class with the name `string`, and the two classes
are widened. In another order the observations conflict. -/
theorem widens_past_scalar :
    let seen : List TypeValue := [.object "" "string", .scalar .string, .object "" "Circle"]
    namesakes.Acyclic ∧ namesakes.WellNamed ∧ (∀ t ∈ seen, ∀ c ∈ t.className?, c.WellFormed) ∧
    Disagree seen ∧
      TypeValue.scalar .string ∈ counted seen ∧
      ofObservations namesakes true seen = .decided (.object "" "Shape") ∧
      ofObservations namesakes true [.scalar .string, .object "" "string", .object "" "Circle"] =
        .inconsistent ["Circle", "string"] := by
  intro seen
  refine ⟨?_, ?_, by decide +kernel, ?_, by decide, ?_, ?_⟩
  · apply namesakes.acyclic_of_rank fun c => if c = ⟨"Shape"⟩ then 0 else 1
    apply Registry.forall_under
    decide +kernel
  · apply Registry.forall_under
    decide +kernel
  · exact ⟨.object "" "string", by decide, .object "" "Circle", by decide, by decide⟩
  · exact ofObservations_of_widened? (by decide +kernel) widened?_namesakes
  · decide +kernel

end Decision
end SignatureInference
