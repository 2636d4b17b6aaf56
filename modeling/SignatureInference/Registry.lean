import SignatureInference.ClassInfo
import SignatureInference.Method

/-! # The registry of classes and methods

All that is known of the classes and methods of a project, one entry for each name. What is added to
an entry never replaces what the entry holds.
-/
namespace SignatureInference

structure MethodKey where
  className : ClassName
  name : String
  deriving DecidableEq, Repr

namespace MethodKey

def display (k : MethodKey) : String := k.className.text ++ "::" ++ k.name

instance : Ord MethodKey := ⟨compareLex (compareOn className) (compareOn name)⟩

instance : Std.TransOrd MethodKey :=
  inferInstanceAs (Std.TransCmp (compareLex (compareOn className) (compareOn name)))

instance : Std.LawfulEqOrd MethodKey where
  eq_of_compare {a b} h := by
    have h : (compare a.className b.className).then (compare a.name b.name) = .eq := h
    rw [Ordering.then_eq_eq] at h
    have hc : a.className = b.className := Std.LawfulEqCmp.eq_of_compare h.1
    have hn : a.name = b.name := Std.LawfulEqCmp.eq_of_compare h.2
    cases a; cases b; simp_all

end MethodKey

structure Registry where
  classes : SortedMap ClassName ClassInfo := ∅
  methods : SortedMap MethodKey Method := ∅
  deriving DecidableEq, Repr

namespace Registry

/-- Enters a class that something refers to, unless it is known. -/
def mention (classes : SortedMap ClassName ClassInfo) (name : ClassName) :
    SortedMap ClassName ClassInfo :=
  classes.insertIfNew name { name }

/-- Adds a class. The classes above it are entered too. -/
def addClass (r : Registry) (c : ClassInfo) : Registry :=
  let classes := c.above.foldl mention r.classes
  { r with
    classes := classes.alter c.name fun known =>
      match known with
      | some known => known.merge c
      | none => c }

def add (r : Registry) (c : ClassInfo) (m : Method) : Registry :=
  let m := { m with className := c.name }
  let r := r.addClass (c.addMethod m.name)
  { r with
    methods := r.methods.alter ⟨c.name, m.name⟩ fun known =>
      match known with
      | some known => known.merge m
      | none => m }

/-- Adds what was observed about methods, each to its class. -/
def observeAll (r : Registry) (observed : List Method) : Registry :=
  observed.foldl (fun r m => r.add { name := m.className } m) r

def method? (r : Registry) (c : ClassName) (name : String) : Option Method :=
  r.methods.get? ⟨c, name⟩

def class? (r : Registry) (c : ClassName) : Option ClassInfo := r.classes.get? c

/-- The classes right above a class, none for an unknown one. -/
def above (r : Registry) (c : ClassName) : List ClassName :=
  match r.class? c with
  | some info => info.above
  | none => []

end Registry
end SignatureInference
