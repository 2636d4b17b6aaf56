import SignatureInference.Registry

/-! # Ancestors

The classes above a class, found depth first: the extended class before the interfaces, the
interfaces in order, and no class twice. The walk ends on every graph, also on one with cycles,
since each step either drops a pending class or enters a known class that was not entered before.
-/
namespace SignatureInference

namespace Registry

variable (r : Registry)

/-- The known classes that a walk has not entered. -/
def unentered (entered : List ClassName) : List ClassName :=
  r.classes.keys.filter fun c => !entered.contains c

theorem above_eq_nil {c : ClassName} (h : c ∉ r.classes.keys) : r.above c = [] := by
  have lookup_none : ∀ es : List (ClassName × ClassInfo), c ∉ es.map (·.1) →
      SortedMap.lookup c es = none := by
    intro es hes
    induction es with
    | nil => rfl
    | cons e es ih =>
      simp only [List.map_cons, List.mem_cons, not_or] at hes
      have : compare c e.1 ≠ .eq := fun h => hes.1 (Std.LawfulEqCmp.eq_of_compare h)
      simp [SortedMap.lookup, this, ih hes.2]
  have : r.classes.get? c = none := lookup_none _ h
  simp [above, class?, this]

theorem unentered_cons (c : ClassName) (entered : List ClassName) :
    r.unentered (c :: entered) = (r.unentered entered).filter fun d => !decide (d = c) := by
  simp only [unentered, List.filter_filter]
  exact List.filter_congr fun d _ => by simp [Bool.not_or]

theorem length_unentered_lt {c : ClassName} {entered : List ClassName}
    (known : c ∈ r.classes.keys) (new : c ∉ entered) :
    (r.unentered (c :: entered)).length < (r.unentered entered).length := by
  rw [unentered_cons, List.length_filter_lt_length_iff_exists]
  exact ⟨c, by simp [unentered, known, new], by simp⟩

/-- Walks through the pending classes, given the classes that are entered already, the last one
first. -/
def walk (entered : List ClassName) : List ClassName → List ClassName
  | [] => []
  | c :: pending =>
    if c ∈ entered then walk entered pending
    else c :: walk (c :: entered) (r.above c ++ pending)
termination_by pending => ((r.unentered entered).length, pending.length)
decreasing_by
  · exact .right _ (by simp)
  · next new =>
    by_cases known : c ∈ r.classes.keys
    · exact .left _ _ (r.length_unentered_lt known new)
    · have same : r.unentered (c :: entered) = r.unentered entered := by
        refine List.filter_congr fun d hd => ?_
        have : d ≠ c := fun h => known (h ▸ hd)
        simp [this]
      rw [same, r.above_eq_nil known]
      exact .right _ (by simp)

/-- A class, followed by the classes above it. -/
def ancestors (c : ClassName) : List ClassName := r.walk [] [c]

/-- The classes that are above all the given ones, or among them, in the order of the ancestors of
the first. -/
def sharedAncestors : List ClassName → List ClassName
  | [] => []
  | c :: cs => (r.ancestors c).filter fun a => cs.all fun d => (r.ancestors d).contains a

/-- The members of a list that are above no other member. -/
def lowest (candidates : List ClassName) : List ClassName :=
  candidates.filter fun c =>
    !candidates.any fun d => d != c && (r.ancestors d).contains c

/-- The type of the lowest class above all the given ones, unresolved if there is not exactly
one. -/
def commonAncestor (classes : List ClassName) : TypeValue :=
  if classes = [] then .unresolved .none
  else
    match r.lowest (r.sharedAncestors classes) with
    | [c] => .ofClassText c.text
    | _ => .unresolvedWith .inconsistent s!"no single common ancestor of {classes.length} classes"

end Registry
end SignatureInference
