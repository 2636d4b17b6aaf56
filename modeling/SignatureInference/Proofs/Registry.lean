import Mathlib.Data.List.Induction
import SignatureInference.Proofs.SortedMap
import SignatureInference.Registry

/-! # What a registry has gathered

After any additions, an entry of a registry is what was given under its name. Of what is declared
about a class or a method the first answer counts, and what is observed is put together in order.
Every class that an entry refers to has an entry too, and no two entries have the same name.
-/
namespace SignatureInference

/-- The first of the given values that says something, where `blank` says nothing. -/
def firstSaid {α : Type} [DecidableEq α] (blank : α) (values : List α) : α :=
  (values.find? (· ≠ blank)).getD blank

section

variable {α : Type} [DecidableEq α] (blank : α)

theorem firstSaid_concat (values : List α) (v : α) :
    firstSaid blank (values ++ [v]) =
      if firstSaid blank values = blank then v else firstSaid blank values := by
  unfold firstSaid
  rw [List.find?_append]
  cases hfind : values.find? (· ≠ blank) with
  | none =>
    by_cases hv : v = blank <;> simp [hv]
  | some w =>
    have hw : w ≠ blank := by simpa using List.find?_some hfind
    simp [hw]

@[simp] theorem firstSaid_singleton (v : α) : firstSaid blank [v] = v :=
  (firstSaid_concat blank [] v).trans (if_pos rfl)

theorem exists_of_firstSaid {β : Type} (f : β → α) {given : List β} {v : α}
    (h : firstSaid blank (given.map f) = v) (hv : v ≠ blank) : ∃ x ∈ given, f x = v := by
  unfold firstSaid at h
  cases hfind : (given.map f).find? (· ≠ blank) with
  | none =>
    rw [hfind] at h
    exact absurd h.symm hv
  | some w =>
    rw [hfind] at h
    obtain rfl : w = v := h
    exact List.mem_map.mp (List.mem_of_find?_eq_some hfind)

end

theorem or_eq_ite {α : Type} (a b : Option α) : a.or b = if a = none then b else a := by
  cases a <;> rfl

/-- The class knows what the given descriptions of it say. -/
structure ClassInfo.Gathers (c : ClassInfo) (given : List ClassInfo) : Prop where
  kind : c.kind = firstSaid .unknown (given.map (·.kind))
  parent : c.parent = firstSaid none (given.map (·.parent))
  interfaces : c.interfaces = firstSaid [] (given.map (·.interfaces))
  path : c.path = firstSaid none (given.map (·.path))
  imports : c.imports = firstSaid ∅ (given.map (·.imports))
  declared : c.declared = given.any (·.declared)
  methods : ∀ name, c.methods.contains name = given.any (·.methods.contains name)

/-- The method knows what the given descriptions of it say, and has all their observations. -/
structure Method.Gathers (m : Method) (given : List Method) : Prop where
  parameters : m.parameters = firstSaid [] (given.map (·.parameters))
  doc : m.doc = firstSaid none (given.map (·.doc))
  hasReturnType : m.hasReturnType = given.any (·.hasReturnType)
  calls : m.calls = given.flatMap (·.calls)
  returns : m.returns = given.flatMap (·.returns)

namespace ClassInfo

variable {c : ClassInfo} {given : List ClassInfo}

theorem gathers_nil (name : ClassName) : Gathers { name } [] :=
  ⟨rfl, rfl, rfl, rfl, rfl, rfl, fun _ => rfl⟩

theorem Gathers.merge (h : c.Gathers given) (other : ClassInfo) :
    (c.merge other).Gathers (given ++ [other]) := by
  constructor
  case declared => simp [ClassInfo.merge, h.declared]
  case methods =>
    intro name
    have hname := h.methods name
    simp only [SortedMap.contains] at hname
    simp [ClassInfo.merge, SortedMap.contains, SortedMap.get?_union, hname]
  -- each other field keeps its value unless that says nothing
  all_goals
    rw [List.map_append, List.map_singleton, firstSaid_concat]
    simp [ClassInfo.merge, List.isEmpty_iff, SortedMap.isEmpty_iff, or_eq_ite, ← h.kind, ← h.parent,
      ← h.interfaces, ← h.path, ← h.imports]

theorem gathers_singleton (c : ClassInfo) : c.Gathers [c] := by
  constructor <;> simp

end ClassInfo

namespace Method

theorem Gathers.merge {m : Method} {given : List Method} (h : m.Gathers given) (other : Method) :
    (m.merge other).Gathers (given ++ [other]) := by
  constructor
  case hasReturnType => simp [Method.merge, h.hasReturnType]
  case calls => simp [Method.merge, h.calls]
  case returns => simp [Method.merge, h.returns]
  all_goals
    rw [List.map_append, List.map_singleton, firstSaid_concat]
    simp [Method.merge, List.isEmpty_iff, or_eq_ite, ← h.parameters, ← h.doc]

theorem gathers_singleton (m : Method) : m.Gathers [m] := by
  constructor <;> simp

end Method

namespace Registry

/-- What is added to a registry: a class, or a method with its class. -/
inductive Addition where
  | ofClass (c : ClassInfo)
  | ofMethod (c : ClassInfo) (m : Method)

namespace Addition

def described : Addition → ClassInfo
  | ofClass c => c
  | ofMethod c m => c.addMethod m.name

def method? : Addition → Option Method
  | ofClass _ => none
  | ofMethod c m => some { m with className := c.name }

def extend (r : Registry) : Addition → Registry
  | ofClass c => r.addClass c
  | ofMethod c m => r.add c m

end Addition

def ofAdditions (added : List Addition) : Registry := added.foldl Addition.extend {}

/-- The registries that arise from the empty one by additions. -/
def Built (r : Registry) : Prop := ∃ added, r = ofAdditions added

def keyOf (m : Method) : MethodKey := ⟨m.className, m.name⟩

def classesGiven (added : List Addition) (name : ClassName) : List ClassInfo :=
  (added.map (·.described)).filter (·.name = name)

def methodsGiven (added : List Addition) (k : MethodKey) : List Method :=
  (added.filterMap (·.method?)).filter (keyOf · = k)

/-- Some addition describes the class or places it right above another. -/
def Named (added : List Addition) (name : ClassName) : Prop :=
  ∃ a ∈ added, a.described.name = name ∨ name ∈ a.described.above

/-! ### One addition -/

theorem Addition.extend_classes (r : Registry) (a : Addition) :
    (a.extend r).classes = (r.addClass a.described).classes := by
  cases a <;> rfl

/-- The entry of a class once those above the added class `c` are entered. -/
def mentioned? (r : Registry) (c : ClassInfo) (name : ClassName) : Option ClassInfo :=
  (r.classes.get? name).or (if name ∈ c.above then some { name } else none)

theorem get?_foldl_mention (r : Registry) (c : ClassInfo) (name : ClassName) :
    (c.above.foldl mention r.classes).get? name = r.mentioned? c name := by
  have hfold := SortedMap.get?_foldl_insertIfNew id (fun name => ({ name } : ClassInfo)) c.above
    r.classes name
  refine hfold.trans ?_
  rw [mentioned?]
  congr 1
  split
  · next hmem =>
    obtain ⟨found, hfind⟩ : ∃ found, c.above.find? (id · = name) = some found := by
      rw [← Option.isSome_iff_exists, List.find?_isSome]
      exact ⟨name, hmem, by simp⟩
    have hfound : found = name := by simpa using List.find?_some hfind
    rw [hfind, hfound, Option.map_some]
  · next hmem =>
    rw [Option.map_eq_none_iff, List.find?_eq_none]
    intro other hother heq
    obtain rfl : other = name := by simpa using heq
    exact hmem hother

theorem get?_addClass (r : Registry) (c : ClassInfo) (name : ClassName) :
    (r.addClass c).classes.get? name =
      if name = c.name then some (((r.mentioned? c name).map (·.merge c)).getD c)
      else r.mentioned? c name := by
  simp only [addClass, SortedMap.get?_alter, get?_foldl_mention]
  split
  · next hname =>
    rw [hname]
    cases r.mentioned? c c.name <;> rfl
  · rfl

theorem get?_add (r : Registry) (c : ClassInfo) (m : Method) (k : MethodKey) :
    (r.add c m).methods.get? k =
      if k = ⟨c.name, m.name⟩ then
        some (((r.methods.get? k).map (·.merge { m with className := c.name })).getD
          { m with className := c.name })
      else r.methods.get? k := by
  refine (SortedMap.get?_alter ..).trans ?_
  split
  · next hk =>
    rw [hk]
    cases hget : r.methods.get? ⟨c.name, m.name⟩ <;> simp [addClass, hget]
  · rfl

/-! ### Every addition -/

/-- The entries of a registry are those that the additions make. -/
structure Gathers (r : Registry) (added : List Addition) : Prop where
  classNamed : ∀ name, r.classes.contains name = true ↔ Named added name
  ofClass : ∀ name c, r.classes.get? name = some c → c.name = name ∧
    c.Gathers (classesGiven added name)
  methodGiven : ∀ k, r.methods.contains k = true ↔ methodsGiven added k ≠ []
  ofMethod : ∀ k m, r.methods.get? k = some m → keyOf m = k ∧ m.Gathers (methodsGiven added k)

theorem gathers_nil : Gathers {} [] where
  classNamed name := by simp [SortedMap.contains, Named]
  ofClass name c h := by cases h
  methodGiven k := by simp [SortedMap.contains, methodsGiven]
  ofMethod k m h := by cases h

section Step

variable {r : Registry} {added : List Addition} (h : r.Gathers added)
include h

theorem Gathers.classesGiven_eq_nil {name : ClassName} (hget : r.classes.get? name = none) :
    classesGiven added name = [] := by
  have hnot : ¬Named added name := by
    rw [← h.classNamed, SortedMap.contains, hget]
    simp
  rw [classesGiven, List.filter_eq_nil_iff]
  intro c hc hname
  obtain ⟨a, ha, rfl⟩ := List.mem_map.mp hc
  exact hnot ⟨a, ha, .inl (by simpa using hname)⟩

theorem Gathers.of_mentioned? {c known : ClassInfo} {name : ClassName}
    (hknown : r.mentioned? c name = some known) :
    known.name = name ∧ known.Gathers (classesGiven added name) := by
  rw [mentioned?] at hknown
  cases hget : r.classes.get? name with
  | some old =>
    rw [hget, Option.some_or] at hknown
    obtain rfl := Option.some.inj hknown
    exact h.ofClass name old hget
  | none =>
    rw [hget, Option.none_or] at hknown
    split at hknown
    · obtain rfl := Option.some.inj hknown
      rw [h.classesGiven_eq_nil hget]
      exact ⟨rfl, ClassInfo.gathers_nil name⟩
    · cases hknown

variable (a : Addition)

theorem Gathers.extend_classNamed (name : ClassName) :
    (a.extend r).classes.contains name = true ↔ Named (added ++ [a]) name := by
  have hnamed : Named (added ++ [a]) name ↔
      Named added name ∨ a.described.name = name ∨ name ∈ a.described.above := by
    simp [Named, or_and_right, exists_or]
  rw [hnamed, ← h.classNamed, Addition.extend_classes, SortedMap.contains, get?_addClass]
  split
  · next hname => simp [hname]
  · next hname =>
    have hne : ¬a.described.name = name := fun h => hname h.symm
    rw [mentioned?, SortedMap.contains]
    by_cases habove : name ∈ a.described.above <;> simp [habove, hne]

theorem Gathers.extend_ofClass {name : ClassName} {c : ClassInfo}
    (hc : (a.extend r).classes.get? name = some c) :
    c.name = name ∧ c.Gathers (classesGiven (added ++ [a]) name) := by
  rw [Addition.extend_classes, get?_addClass] at hc
  split at hc
  · next hname =>
    have hgiven : classesGiven (added ++ [a]) name = classesGiven added name ++ [a.described] := by
      simp [classesGiven, hname]
    rw [hgiven]
    cases hknown : r.mentioned? a.described name with
    | some known =>
      rw [hknown] at hc
      obtain rfl := Option.some.inj hc
      obtain ⟨hsame, hgathers⟩ := h.of_mentioned? hknown
      exact ⟨hsame, hgathers.merge a.described⟩
    | none =>
      rw [hknown] at hc
      obtain rfl := Option.some.inj hc
      have hget : r.classes.get? name = none := (Option.or_eq_none_iff.mp hknown).1
      rw [h.classesGiven_eq_nil hget]
      exact ⟨hname.symm, a.described.gathers_singleton⟩
  · next hname =>
    have hne : ¬a.described.name = name := fun h => hname h.symm
    have hgiven : classesGiven (added ++ [a]) name = classesGiven added name := by
      simp [classesGiven, hne]
    rw [hgiven]
    exact h.of_mentioned? hc

theorem Gathers.extend_methodGiven (k : MethodKey) :
    (a.extend r).methods.contains k = true ↔ methodsGiven (added ++ [a]) k ≠ [] := by
  have hold := h.methodGiven k
  cases a with
  | ofClass c =>
    refine hold.trans ?_
    simp [methodsGiven, Addition.method?]
  | ofMethod c m =>
    rw [SortedMap.contains, Addition.extend, get?_add]
    split
    · next hk =>
      simp [methodsGiven, Addition.method?, hk, keyOf]
    · next hk =>
      refine hold.trans ?_
      have hne : ¬keyOf { m with className := c.name } = k := fun h => hk h.symm
      simp [methodsGiven, Addition.method?, hne]

theorem Gathers.extend_ofMethod {k : MethodKey} {m : Method}
    (hm : (a.extend r).methods.get? k = some m) :
    keyOf m = k ∧ m.Gathers (methodsGiven (added ++ [a]) k) := by
  cases a with
  | ofClass c =>
    have hgiven : methodsGiven (added ++ [.ofClass c]) k = methodsGiven added k := by
      simp [methodsGiven, Addition.method?]
    rw [hgiven]
    exact h.ofMethod k m hm
  | ofMethod c given =>
    rw [Addition.extend, get?_add] at hm
    split at hm
    · next hk =>
      have hgiven : methodsGiven (added ++ [.ofMethod c given]) k =
          methodsGiven added k ++ [{ given with className := c.name }] := by
        simp [methodsGiven, Addition.method?, hk, keyOf]
      rw [hgiven]
      cases hknown : r.methods.get? k with
      | some known =>
        rw [hknown] at hm
        obtain rfl := Option.some.inj hm
        obtain ⟨hsame, hgathers⟩ := h.ofMethod k known hknown
        exact ⟨hsame, hgathers.merge _⟩
      | none =>
        rw [hknown] at hm
        obtain rfl := Option.some.inj hm
        have hnil : methodsGiven added k = [] := by
          have hiff := h.methodGiven k
          rw [SortedMap.contains, hknown] at hiff
          simpa using hiff
        rw [hnil]
        exact ⟨hk.symm, Method.gathers_singleton _⟩
    · next hk =>
      have hne : ¬keyOf { given with className := c.name } = k := fun h => hk h.symm
      have hgiven : methodsGiven (added ++ [.ofMethod c given]) k = methodsGiven added k := by
        simp [methodsGiven, Addition.method?, hne]
      rw [hgiven]
      exact h.ofMethod k m hm

theorem Gathers.extend : (a.extend r).Gathers (added ++ [a]) where
  classNamed := h.extend_classNamed a
  ofClass _ _ := h.extend_ofClass a
  methodGiven := h.extend_methodGiven a
  ofMethod _ _ := h.extend_ofMethod a

end Step

theorem gathers_ofAdditions (added : List Addition) : (ofAdditions added).Gathers added := by
  induction added using List.reverseRecOn with
  | nil => exact gathers_nil
  | append_singleton added a ih =>
    rw [ofAdditions, List.foldl_append]
    exact ih.extend a

theorem Built.keyOf_eq {r : Registry} (h : r.Built) {k : MethodKey} {m : Method}
    (hm : r.methods.get? k = some m) : keyOf m = k := by
  obtain ⟨added, rfl⟩ := h
  exact ((gathers_ofAdditions added).ofMethod k m hm).1

theorem Built.nodup_keys {r : Registry} (h : r.Built) : (r.methods.values.map keyOf).Nodup := by
  have hkeys : r.methods.values.map keyOf = r.methods.keys := by
    rw [SortedMap.values, SortedMap.keys, List.map_map]
    apply List.map_congr_left
    intro e he
    exact h.keyOf_eq ((SortedMap.mem_entries_iff _).mp he)
  rw [hkeys]
  exact r.methods.nodup_keys

section Closed

variable {r : Registry} {added : List Addition} (h : r.Gathers added)
include h

theorem Gathers.contains_above {name above : ClassName} {c : ClassInfo}
    (hc : r.classes.get? name = some c) (habove : above ∈ c.above) :
    r.classes.contains above = true := by
  have hgathers := (h.ofClass name c hc).2
  suffices hgiven : ∃ given ∈ classesGiven added name, above ∈ given.above by
    obtain ⟨given, hgiven, habove⟩ := hgiven
    obtain ⟨a, ha, rfl⟩ := List.mem_map.mp (List.mem_filter.mp hgiven).1
    exact (h.classNamed above).mpr ⟨a, ha, .inr habove⟩
  rw [ClassInfo.above, List.mem_append, Option.mem_toList] at habove
  rcases habove with hparent | hinterface
  · obtain ⟨given, hgiven, heq⟩ := exists_of_firstSaid none ClassInfo.parent hgathers.parent.symm
      (by rw [hparent]; simp)
    refine ⟨given, hgiven, List.mem_append_left _ ?_⟩
    rw [Option.mem_toList, heq]
    exact hparent
  · obtain ⟨given, hgiven, heq⟩ :=
      exists_of_firstSaid [] ClassInfo.interfaces hgathers.interfaces.symm
      (List.ne_nil_of_mem hinterface)
    refine ⟨given, hgiven, List.mem_append_right _ ?_⟩
    rw [heq]
    exact hinterface

theorem Gathers.class_of_method {k : MethodKey} (hk : r.methods.contains k = true) :
    ∃ c, r.classes.get? k.className = some c ∧ c.methods.contains k.name = true := by
  obtain ⟨m, hm⟩ := List.exists_mem_of_ne_nil _ ((h.methodGiven k).mp hk)
  rw [methodsGiven, List.mem_filter, List.mem_filterMap] at hm
  obtain ⟨⟨a, ha, hmethod⟩, hkey⟩ := hm
  obtain rfl : keyOf m = k := by simpa using hkey
  -- only a method that came with its class can have been given
  cases a with
  | ofClass c => cases hmethod
  | ofMethod c given =>
    cases hmethod
    have hnamed : Named added c.name := ⟨_, ha, .inl rfl⟩
    obtain ⟨known, hknown⟩ := Option.isSome_iff_exists.mp ((h.classNamed c.name).mpr hnamed)
    refine ⟨known, hknown, ?_⟩
    rw [(h.ofClass c.name known hknown).2.methods, List.any_eq_true]
    refine ⟨c.addMethod given.name, List.mem_filter.mpr ⟨List.mem_map.mpr ⟨_, ha, rfl⟩, ?_⟩, ?_⟩
    · exact decide_eq_true rfl
    · simp [ClassInfo.addMethod, SortedMap.contains, keyOf]

end Closed

/-- Whatever is added and in whatever order, the classes and methods that were given, and the
classes above them, are exactly the entries. Each stands under its own name and gathers what was
given under that name; the classes above an entry and the class of a method are entries too. -/
theorem entries_of_additions (added : List Addition) :
    let r := ofAdditions added
    (∀ name c, r.classes.get? name = some c →
      c.name = name ∧ (∀ above ∈ c.above, r.classes.contains above = true) ∧
        c.Gathers (classesGiven added name)) ∧
    (∀ k m, r.methods.get? k = some m →
      keyOf m = k ∧
        (∃ c, r.classes.get? m.className = some c ∧ c.methods.contains m.name = true) ∧
        m.Gathers (methodsGiven added k)) ∧
    (∀ name, r.classes.contains name = true ↔ Named added name) ∧
    (∀ k, r.methods.contains k = true ↔ methodsGiven added k ≠ []) := by
  intro r
  have h : r.Gathers added := gathers_ofAdditions added
  refine ⟨?_, ?_, h.classNamed, h.methodGiven⟩
  · intro name c hc
    obtain ⟨hname, hgathers⟩ := h.ofClass name c hc
    exact ⟨hname, fun above habove => h.contains_above hc habove, hgathers⟩
  · intro k m hm
    obtain ⟨rfl, hgathers⟩ := h.ofMethod k m hm
    have hcontains : r.methods.contains (keyOf m) = true := by rw [SortedMap.contains, hm]; rfl
    exact ⟨rfl, h.class_of_method hcontains, hgathers⟩

end Registry
end SignatureInference
