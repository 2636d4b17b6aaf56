import SignatureInference.Proofs.Lists
import SignatureInference.Proofs.Registry

/-! # Order of additions

Files and traces come in any order. As long as no two additions declare the same thing, the registry
does not depend on it: the classes are the same, also those that are only referred to, and the
methods differ at most in the order of their observations.
-/
namespace SignatureInference

def SaidOnce {α : Type} [DecidableEq α] (blank : α) (values : List α) : Prop :=
  values.countP (· ≠ blank) ≤ 1

theorem SaidOnce.firstSaid_perm {α : Type} [DecidableEq α] {blank : α} {values values' : List α}
    (honce : SaidOnce blank values) (hperm : values.Perm values') :
    firstSaid blank values = firstSaid blank values' := by
  have hfilter : values.filter (· ≠ blank) = values'.filter (· ≠ blank) := by
    apply eq_of_perm_of_length_le_one (hperm.filter _)
    rw [← List.countP_eq_length_filter]
    exact honce
  rw [firstSaid, firstSaid, ← List.head?_filter, ← List.head?_filter, hfilter]

/-- No two of the given descriptions of a class declare the same part of it. -/
structure ClassInfo.DeclaredOnce (given : List ClassInfo) : Prop where
  kind : SaidOnce .unknown (given.map (·.kind))
  parent : SaidOnce none (given.map (·.parent))
  interfaces : SaidOnce [] (given.map (·.interfaces))
  path : SaidOnce none (given.map (·.path))
  imports : SaidOnce ∅ (given.map (·.imports))

structure Method.DeclaredOnce (given : List Method) : Prop where
  parameters : SaidOnce [] (given.map (·.parameters))
  doc : SaidOnce none (given.map (·.doc))

/-- The methods agree in all but the order of what was observed about them. -/
structure Method.Alike (m m' : Method) : Prop where
  className : m.className = m'.className
  name : m.name = m'.name
  parameters : m.parameters = m'.parameters
  hasReturnType : m.hasReturnType = m'.hasReturnType
  doc : m.doc = m'.doc
  calls : m.calls.Perm m'.calls
  returns : m.returns.Perm m'.returns

theorem ClassInfo.Gathers.eq_of_perm {c c' : ClassInfo} {given given' : List ClassInfo}
    (h : c.Gathers given) (h' : c'.Gathers given') (hname : c.name = c'.name)
    (hperm : given.Perm given') (honce : DeclaredOnce given) : c = c' := by
  have hkind : c.kind = c'.kind := by
    rw [h.kind, h'.kind, honce.kind.firstSaid_perm (hperm.map _)]
  have hparent : c.parent = c'.parent := by
    rw [h.parent, h'.parent, honce.parent.firstSaid_perm (hperm.map _)]
  have hinterfaces : c.interfaces = c'.interfaces := by
    rw [h.interfaces, h'.interfaces, honce.interfaces.firstSaid_perm (hperm.map _)]
  have hpath : c.path = c'.path := by
    rw [h.path, h'.path, honce.path.firstSaid_perm (hperm.map _)]
  have himports : c.imports = c'.imports := by
    rw [h.imports, h'.imports, honce.imports.firstSaid_perm (hperm.map _)]
  have hdeclared : c.declared = c'.declared := by
    rw [h.declared, h'.declared, hperm.any_eq]
  have hmethods : c.methods = c'.methods := by
    apply SortedMap.eq_of_contains
    intro name
    rw [h.methods, h'.methods, hperm.any_eq]
  cases c
  cases c'
  simp_all

theorem Method.Gathers.alike_of_perm {m m' : Method} {given given' : List Method}
    (h : m.Gathers given) (h' : m'.Gathers given') (hkey : Registry.keyOf m = Registry.keyOf m')
    (hperm : given.Perm given') (honce : DeclaredOnce given) : m.Alike m' where
  className := congrArg MethodKey.className hkey
  name := congrArg MethodKey.name hkey
  parameters := by
    rw [h.parameters, h'.parameters, honce.parameters.firstSaid_perm (hperm.map _)]
  hasReturnType := by rw [h.hasReturnType, h'.hasReturnType, hperm.any_eq]
  doc := by rw [h.doc, h'.doc, honce.doc.firstSaid_perm (hperm.map _)]
  calls := by
    rw [h.calls, h'.calls]
    exact hperm.flatMap_right _
  returns := by
    rw [h.returns, h'.returns]
    exact hperm.flatMap_right _

namespace Registry

variable {added added' : List Addition}

theorem classesGiven_perm (hperm : added.Perm added') (name : ClassName) :
    (classesGiven added name).Perm (classesGiven added' name) :=
  (hperm.map _).filter _

theorem methodsGiven_perm (hperm : added.Perm added') (k : MethodKey) :
    (methodsGiven added k).Perm (methodsGiven added' k) :=
  (hperm.filterMap _).filter _

theorem named_perm (hperm : added.Perm added') (name : ClassName) :
    Named added name ↔ Named added' name := by
  constructor
  · rintro ⟨a, ha, hname⟩
    exact ⟨a, hperm.mem_iff.mp ha, hname⟩
  · rintro ⟨a, ha, hname⟩
    exact ⟨a, hperm.mem_iff.mpr ha, hname⟩

/-- The classes do not depend on the order in which they were declared and referred to. -/
theorem classes_perm (hperm : added.Perm added')
    (honce : ∀ name, ClassInfo.DeclaredOnce (classesGiven added name)) :
    (ofAdditions added).classes = (ofAdditions added').classes := by
  have h := gathers_ofAdditions added
  have h' := gathers_ofAdditions added'
  apply SortedMap.eq_of_get?
  intro name
  have hcontains : (ofAdditions added).classes.contains name =
      (ofAdditions added').classes.contains name := by
    rw [Bool.eq_iff_iff, h.classNamed, h'.classNamed]
    exact named_perm hperm name
  cases hc : (ofAdditions added).classes.get? name with
  | none =>
    rw [SortedMap.contains, SortedMap.contains, hc] at hcontains
    exact (Option.isSome_eq_false_iff.mp hcontains.symm |> Option.isNone_iff_eq_none.mp).symm
  | some c =>
    obtain ⟨c', hc'⟩ : ∃ c', (ofAdditions added').classes.get? name = some c' := by
      rw [← Option.isSome_iff_exists, ← SortedMap.contains, ← hcontains, SortedMap.contains, hc]
      rfl
    obtain ⟨hname, hgathers⟩ := h.ofClass name c hc
    obtain ⟨hname', hgathers'⟩ := h'.ofClass name c' hc'
    rw [hc', hgathers.eq_of_perm hgathers' (hname.trans hname'.symm) (classesGiven_perm hperm name)
      (honce name)]

/-- The methods are the same, up to the order of what was observed about each. -/
theorem methods_perm (hperm : added.Perm added')
    (honce : ∀ k, Method.DeclaredOnce (methodsGiven added k)) :
    (ofAdditions added).methods.keys = (ofAdditions added').methods.keys ∧
      ∀ k m m', (ofAdditions added).methods.get? k = some m →
        (ofAdditions added').methods.get? k = some m' → m.Alike m' := by
  have h := gathers_ofAdditions added
  have h' := gathers_ofAdditions added'
  constructor
  · apply SortedMap.keys_eq_of_contains
    intro k
    rw [Bool.eq_iff_iff, h.methodGiven, h'.methodGiven, Ne, Ne, not_iff_not]
    have hgiven := methodsGiven_perm hperm k
    exact ⟨fun hnil => (hnil ▸ hgiven).nil_eq.symm, fun hnil => (hnil ▸ hgiven).eq_nil⟩
  · intro k m m' hm hm'
    obtain ⟨hkey, hgathers⟩ := h.ofMethod k m hm
    obtain ⟨hkey', hgathers'⟩ := h'.ofMethod k m' hm'
    exact hgathers.alike_of_perm hgathers' (hkey.trans hkey'.symm)
      (methodsGiven_perm hperm k) (honce k)

/-- Additions in any order make the same registry, up to the order of what was observed, if no two
of them declare the same part of a class or a method. -/
theorem same_of_perm (hperm : added.Perm added')
    (hclasses : ∀ name, ClassInfo.DeclaredOnce (classesGiven added name))
    (hmethods : ∀ k, Method.DeclaredOnce (methodsGiven added k)) :
    (ofAdditions added).classes = (ofAdditions added').classes ∧
      (ofAdditions added).methods.keys = (ofAdditions added').methods.keys ∧
        ∀ k m m', (ofAdditions added).methods.get? k = some m →
          (ofAdditions added').methods.get? k = some m' → m.Alike m' :=
  ⟨classes_perm hperm hclasses, methods_perm hperm hmethods⟩

def scattered : List Addition :=
  let bare : ClassInfo := { name := ⟨"Child"⟩ }
  [.ofMethod bare { className := ⟨"Child"⟩, name := "run", calls := [[.array], [.callable]] },
   .ofClass { name := ⟨"Child"⟩, kind := .ordinary, parent := some ⟨"Base"⟩, declared := true },
   .ofMethod bare
     { className := ⟨"Child"⟩, name := "run", parameters := [{ name := "x" }],
       calls := [[.array]] },
   .ofClass { name := ⟨"Base"⟩, kind := .ordinary, interfaces := [⟨"Contract"⟩], declared := true }]

theorem same_of_perm_scattered :
    (∀ name, ClassInfo.DeclaredOnce (classesGiven scattered name)) ∧
      (∀ k, Method.DeclaredOnce (methodsGiven scattered k)) ∧
      (ofAdditions scattered).classes = (ofAdditions scattered.reverse).classes ∧
      ((ofAdditions scattered).method? ⟨"Child"⟩ "run").map (·.calls) =
        some [[.array], [.callable], [.array]] ∧
      ((ofAdditions scattered.reverse).method? ⟨"Child"⟩ "run").map (·.calls) =
        some [[.array], [.array], [.callable]] := by
  have hclasses : ∀ name, ClassInfo.DeclaredOnce (classesGiven scattered name) := by
    intro name
    constructor <;>
      simp [SaidOnce, scattered, classesGiven, Addition.described, ClassInfo.addMethod,
        List.countP_map, List.countP_filter, List.countP_cons] <;> grind
  have hmethods : ∀ k, Method.DeclaredOnce (methodsGiven scattered k) := by
    intro k
    constructor
    · simp [SaidOnce, scattered, methodsGiven, Addition.method?, List.countP_map,
        List.countP_filter, List.countP_cons]
      grind
    · simp [SaidOnce, scattered, methodsGiven, Addition.method?, List.countP_map,
        List.countP_filter]
  have hsame := same_of_perm (List.reverse_perm scattered).symm hclasses hmethods
  exact ⟨hclasses, hmethods, hsame.1, by decide +kernel, by decide +kernel⟩

end Registry
end SignatureInference
