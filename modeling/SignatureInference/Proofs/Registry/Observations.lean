import SignatureInference.Proofs.Registry

/-! # Observations alone

Traces and doc comments say nothing about how a class or a method is declared. What they observe is
put behind what was observed before, method by method. Classes learn no more from it than the names
of these methods, and a class or a method that was not known is entered with nothing else.
-/
namespace SignatureInference

/-! ### Methods -/

namespace Method

/-- The method is known by nothing but observations. -/
structure Bare (m : Method) : Prop where
  parameters : m.parameters = []
  hasReturnType : m.hasReturnType = false
  doc : m.doc = none

def observing (m : Method) (given : List Method) : Method :=
  { m with
    calls := m.calls ++ given.flatMap (·.calls)
    returns := m.returns ++ given.flatMap (·.returns) }

theorem observing_nil (m : Method) : m.observing [] = m := by
  simp [observing]

theorem observing_concat (m : Method) (given : List Method) (e : Method) :
    m.observing (given ++ [e]) = (m.observing given).observing [e] := by
  simp [observing]

theorem Bare.merge_eq {e : Method} (he : e.Bare) (m : Method) : m.merge e = m.observing [e] := by
  obtain ⟨hparameters, hreturn, hdoc⟩ := he
  cases m
  simp_all [merge, observing]

end Method

/-! ### Classes -/

namespace ClassInfo

/-- The class is what it was, except that it has some methods more. -/
structure Learns (c known : ClassInfo) (names : List String) : Prop where
  same : { c with methods := known.methods } = known
  methods : ∀ name, c.methods.contains name = true ↔
    known.methods.contains name = true ∨ name ∈ names

theorem Learns.trans {a b c : ClassInfo} {xs ys : List String} (h : b.Learns a xs)
    (h' : c.Learns b ys) : c.Learns a (xs ++ ys) where
  same := by
    have hc := congrArg (fun d : ClassInfo => { d with methods := a.methods }) h'.same
    exact hc.trans h.same
  methods name := by
    rw [h'.methods, h.methods, List.mem_append, or_assoc]

theorem Learns.eq_of_known {c known : ClassInfo} {names : List String} (h : c.Learns known names)
    (hknown : ∀ name ∈ names, known.methods.contains name = true) : c = known := by
  have hmethods : c.methods = known.methods := by
    apply SortedMap.eq_of_contains
    intro name
    rw [Bool.eq_iff_iff, h.methods]
    exact or_iff_left_of_imp (hknown name)
  rw [← h.same, ← hmethods]

theorem contains_addMethod (c : ClassInfo) (method name : String) :
    (c.addMethod method).methods.contains name = true ↔
      c.methods.contains name = true ∨ name = method := by
  rw [addMethod, SortedMap.contains, SortedMap.get?_insert, SortedMap.contains]
  by_cases hname : name = method <;> simp [hname]

theorem learns_addMethod (c : ClassInfo) (method : String) :
    (c.addMethod method).Learns c [method] where
  same := rfl
  methods name := by rw [contains_addMethod, List.mem_singleton]

theorem learns_merge (c : ClassInfo) (name : ClassName) (method : String) :
    (c.merge (({ name } : ClassInfo).addMethod method)).Learns c [method] where
  same := by
    have himports : (if c.imports.isEmpty then ∅ else c.imports) = c.imports := by
      split
      · next hempty => exact ((SortedMap.isEmpty_iff _).mp hempty).symm
      · rfl
    cases c
    simp_all [merge, addMethod]
  methods other := by
    have hadded := contains_addMethod { name } method other
    rw [merge, SortedMap.contains, SortedMap.get?_union, Option.isSome_or, Bool.or_eq_true,
      List.mem_singleton]
    simp only [SortedMap.contains] at hadded ⊢
    rw [hadded]
    simp

end ClassInfo

namespace Registry

/-! ### One observation -/

def unknown (k : MethodKey) : Method := { className := k.className, name := k.name }

theorem observing_unknown {e : Method} (he : e.Bare) : (unknown (keyOf e)).observing [e] = e := by
  obtain ⟨hparameters, hreturn, hdoc⟩ := he
  cases e
  simp_all [unknown, keyOf, Method.observing]

theorem get?_add_observed (s : Registry) (e : Method) (k : MethodKey) :
    (s.add { name := e.className } e).methods.get? k =
      if k = keyOf e then some (((s.methods.get? k).map (·.merge e)).getD e)
      else s.methods.get? k :=
  s.get?_add { name := e.className } e k

theorem class_add_observed (s : Registry) (e : Method) (name : ClassName) :
    (s.add { name := e.className } e).classes.get? name =
      if name = e.className then
        some (((s.classes.get? name).map (·.merge (({ name } : ClassInfo).addMethod e.name))).getD
          (({ name } : ClassInfo).addMethod e.name))
      else s.classes.get? name := by
  refine (s.get?_addClass (({ name := e.className } : ClassInfo).addMethod e.name) name).trans ?_
  have hmentioned : s.mentioned? (({ name := e.className } : ClassInfo).addMethod e.name) name =
      s.classes.get? name := by
    simp [mentioned?, ClassInfo.above, ClassInfo.addMethod]
  rw [hmentioned]
  by_cases hname : name = e.className
  · subst hname
    rfl
  · exact (if_neg hname).trans (if_neg hname).symm

theorem exists_class_add_observed (s : Registry) (e : Method) :
    ∃ c, (s.add { name := e.className } e).classes.get? e.className = some c ∧
      c.Learns ((s.classes.get? e.className).getD { name := e.className }) [e.name] := by
  rw [class_add_observed, if_pos rfl]
  refine ⟨_, rfl, ?_⟩
  cases s.classes.get? e.className with
  | none => exact ClassInfo.learns_addMethod _ _
  | some known => exact known.learns_merge _ _

theorem classes_add_known {s : Registry} {e : Method} {c : ClassInfo}
    (hc : s.classes.get? e.className = some c) (hmethod : c.methods.contains e.name = true) :
    (s.add { name := e.className } e).classes = s.classes := by
  apply SortedMap.eq_of_get?
  intro name
  by_cases hname : name = e.className
  · subst hname
    obtain ⟨learned, hlearned, hlearns⟩ := exists_class_add_observed s e
    rw [hc] at hlearns
    rw [hlearned, hc, hlearns.eq_of_known (by simpa using hmethod)]
    rfl
  · rw [class_add_observed, if_neg hname]

/-! ### All observations -/

variable {r : Registry} {es : List Method}

theorem observeAll_append (r : Registry) (es ds : List Method) :
    r.observeAll (es ++ ds) = (r.observeAll es).observeAll ds :=
  List.foldl_append

theorem observeAll_concat (r : Registry) (es : List Method) (e : Method) :
    r.observeAll (es ++ [e]) = (r.observeAll es).add { name := e.className } e :=
  r.observeAll_append es [e]

/-- Observations are collected in order, and nothing else about a method changes. -/
theorem get?_observeAll (hbare : ∀ e ∈ es, e.Bare) (k : MethodKey) :
    (r.observeAll es).methods.get? k =
      if es.filter (keyOf · = k) = [] then r.methods.get? k
      else some (((r.methods.get? k).getD (unknown k)).observing (es.filter (keyOf · = k))) := by
  induction es using List.reverseRecOn with
  | nil => rfl
  | append_singleton es e ih =>
    have he : e.Bare := hbare e (by simp)
    rw [observeAll_concat, get?_add_observed, ih fun d hd => hbare d (List.mem_append_left _ hd),
      List.filter_append]
    by_cases hk : keyOf e = k
    · subst hk
      have hself : [e].filter (keyOf · = keyOf e) = [e] := by simp
      have hne : es.filter (keyOf · = keyOf e) ++ [e] ≠ [] := by simp
      rw [if_pos rfl, hself, if_neg hne]
      -- the method was observed before, is known without observations, or is new
      split
      · next hnone =>
        rw [hnone, List.nil_append]
        cases r.methods.get? (keyOf e) with
        | some m => exact congrArg some (he.merge_eq m)
        | none => exact congrArg some (observing_unknown he).symm
      · rw [Option.map_some, Option.getD_some, he.merge_eq, Method.observing_concat]
    · have hother : [e].filter (keyOf · = k) = [] := by simp [hk]
      rw [if_neg fun h => hk h.symm, hother, List.append_nil]

theorem get?_observeAll_known (hbare : ∀ e ∈ es, e.Bare)
    (hknown : ∀ e ∈ es, r.methods.contains (keyOf e) = true) (k : MethodKey) :
    (r.observeAll es).methods.get? k =
      (r.methods.get? k).map (·.observing (es.filter (keyOf · = k))) := by
  rw [get?_observeAll hbare]
  cases hget : r.methods.get? k with
  | some m =>
    split
    · next hnil => rw [hnil, Option.map_some, Method.observing_nil]
    · rfl
  | none =>
    have hnil : es.filter (keyOf · = k) = [] := by
      rw [List.filter_eq_nil_iff]
      intro e he hk
      have hcontains := hknown e he
      rw [of_decide_eq_true hk, SortedMap.contains, hget] at hcontains
      cases hcontains
    rw [if_pos hnil]
    rfl

theorem contains_observeAll (hbare : ∀ e ∈ es, e.Bare) {e : Method} (he : e ∈ es) :
    (r.observeAll es).methods.contains (keyOf e) = true := by
  have hne : es.filter (keyOf · = keyOf e) ≠ [] :=
    List.ne_nil_of_mem (List.mem_filter.mpr ⟨he, decide_eq_true rfl⟩)
  rw [SortedMap.contains, get?_observeAll hbare, if_neg hne]
  rfl

theorem class_observeAll_of_unobserved {name : ClassName} (h : ∀ e ∈ es, e.className ≠ name) :
    (r.observeAll es).classes.get? name = r.classes.get? name := by
  induction es using List.reverseRecOn with
  | nil => rfl
  | append_singleton es e ih =>
    have he : name ≠ e.className := (h e (by simp)).symm
    rw [observeAll_concat, class_add_observed, if_neg he,
      ih fun d hd => h d (List.mem_append_left _ hd)]

/-- The classes of observed methods are entered and learn the names of the methods. -/
theorem exists_class_observeAll {name : ClassName} (h : ∃ e ∈ es, e.className = name) :
    ∃ c, (r.observeAll es).classes.get? name = some c ∧
      c.Learns ((r.classes.get? name).getD { name })
        ((es.filter (·.className = name)).map (·.name)) := by
  induction es using List.reverseRecOn with
  | nil => simp at h
  | append_singleton es e ih =>
    rw [observeAll_concat]
    by_cases he : e.className = name
    · subst he
      obtain ⟨c, hc, hlearns⟩ := exists_class_add_observed (r.observeAll es) e
      refine ⟨c, hc, ?_⟩
      by_cases hbefore : ∃ d ∈ es, d.className = e.className
      · obtain ⟨known, hknown, hlearned⟩ := ih hbefore
        rw [hknown] at hlearns
        simpa using hlearned.trans hlearns
      · have hnone : ∀ d ∈ es, d.className ≠ e.className := fun d hd heq => hbefore ⟨d, hd, heq⟩
        have hnil : es.filter (·.className = e.className) = [] := by
          simpa [List.filter_eq_nil_iff] using hnone
        rw [class_observeAll_of_unobserved hnone] at hlearns
        simpa [hnil] using hlearns
    · obtain ⟨d, hd, hname⟩ := h
      have hes : d ∈ es := by
        rcases List.mem_append.mp hd with hes | hlast
        · exact hes
        · exact absurd (List.mem_singleton.mp hlast ▸ hname) he
      obtain ⟨c, hc, hlearns⟩ := ih ⟨d, hes, hname⟩
      refine ⟨c, ?_, ?_⟩
      · rw [class_add_observed, if_neg (Ne.symm he), hc]
      · simpa [he] using hlearns

theorem classes_observeAll_known
    (h : ∀ e ∈ es, ∃ c, r.classes.get? e.className = some c ∧ c.methods.contains e.name = true) :
    (r.observeAll es).classes = r.classes := by
  induction es using List.reverseRecOn with
  | nil => rfl
  | append_singleton es e ih =>
    have hes := ih fun d hd => h d (List.mem_append_left _ hd)
    obtain ⟨c, hc, hmethod⟩ := h e (by simp)
    rw [observeAll_concat, classes_add_known (hes.symm ▸ hc) hmethod, hes]

/-- What was observed about a built registry is as if it had been added to it. -/
theorem Built.observeAll (h : r.Built) (es : List Method) : (r.observeAll es).Built := by
  obtain ⟨added, rfl⟩ := h
  refine ⟨added ++ es.map fun e => .ofMethod { name := e.className } e, ?_⟩
  simp only [ofAdditions, List.foldl_append, List.foldl_map]
  rfl

theorem Built.class_of_method (h : r.Built) {k : MethodKey} (hk : r.methods.contains k = true) :
    ∃ c, r.classes.get? k.className = some c ∧ c.methods.contains k.name = true := by
  obtain ⟨added, rfl⟩ := h
  exact (gathers_ofAdditions added).class_of_method hk

end Registry
end SignatureInference
