import SignatureInference.DocType
import SignatureInference.Proofs.Text.Splitting
import SignatureInference.Proofs.TypeValue
import SignatureInference.Trace.ValueType

/-! # The names of the types that are read

Types are told apart by their names. The types that are read from traces and from doc comments have
short names without a backslash, so that objects with the same name are of the same class. Only an
object can be mistaken for something else: for a scalar type or for an unresolved one.
-/
namespace SignatureInference

namespace TypeValue

def isObject (t : TypeValue) : Bool :=
  match t.shape with
  | .object .. => true
  | _ => false

/-- The short name of an object type has no backslash. -/
def ShortNamed (t : TypeValue) : Prop :=
  ∀ space name, t.shape = .object space name → '\\' ∉ name.toList

theorem shortNamed_object {space name : String} (h : '\\' ∉ name.toList) :
    (object space name).ShortNamed := by
  intro space' name' hshape
  cases hshape
  exact h

theorem shortNamed_of_not_object {t : TypeValue} (h : t.isObject = false) : t.ShortNamed := by
  intro space name hshape
  rw [isObject, hshape] at h
  cases h

theorem shortNamed_ofClass (c : ClassName) : (ofClass c).ShortNamed :=
  shortNamed_object c.backslash_not_mem_shortName

theorem shortNamed_array : array.ShortNamed := shortNamed_object (by decide)

theorem shortNamed_callable : callable.ShortNamed := shortNamed_object (by decide)

theorem ShortNamed.orNull {t : TypeValue} (h : t.ShortNamed) : t.orNull.ShortNamed := h

/-! ### Equal names -/

theorem object_inj {space name space' name' : String} (h : '\\' ∉ name.toList)
    (h' : '\\' ∉ name'.toList) (heq : (object space name).name = (object space' name').name) :
    space = space' ∧ name = name' := by
  have hchars : ∀ s n : String, (s ++ "\\" ++ n).toList = s.toList ++ '\\' :: n.toList := by
    intro s n
    simp
  simp only [TypeValue.name, object, beq_iff_eq] at heq
  split at heq
  · next hspace =>
    split at heq
    · next hspace' => exact ⟨hspace.trans hspace'.symm, heq⟩
    · rw [heq, hchars] at h
      simp at h
  · split at heq
    · rw [← heq, hchars] at h'
      simp at h'
    · have hlists := congrArg String.toList heq
      rw [hchars, hchars] at hlists
      have hcut := Text.breakOnLast?_eq_some.mpr ⟨hlists, h'⟩
      rw [Text.breakOnLast?_eq_some.mpr ⟨rfl, h⟩] at hcut
      obtain ⟨hspace, hname⟩ := Prod.mk.inj (Option.some.inj hcut)
      exact ⟨String.toList_inj.mp hspace, String.toList_inj.mp hname⟩

theorem keyword_inj {a b : Scalar} (h : a.keyword = b.keyword) : a = b := by
  revert h
  cases a <;> cases b <;> decide

theorem keyword_ne_unresolved (kind : Scalar) (reason : Doubt) :
    kind.keyword ≠ "unresolvable(" ++ reason.word ++ ")" := by
  cases kind <;> cases reason <;> decide

/-- Types of the same name are written alike and describe the same class, unless just one of them is
that of an object. -/
theorem alike_of_name {t u : TypeValue} (ht : t.ShortNamed) (hu : u.ShortNamed)
    (hobject : t.isObject = u.isObject) (hname : t.name = u.name) :
    t.hintName? = u.hintName? ∧ t.className? = u.className? := by
  obtain ⟨tshape, tnull⟩ := t
  obtain ⟨ushape, unull⟩ := u
  cases tshape with
  | object space name =>
    cases ushape with
    | object space' name' =>
      obtain ⟨rfl, rfl⟩ := object_inj (ht _ _ rfl) (hu _ _ rfl) hname
      exact ⟨rfl, rfl⟩
    | scalar kind => cases hobject
    | unresolved reason note => cases hobject
  | scalar kind =>
    cases ushape with
    | object space name => cases hobject
    | scalar kind' =>
      obtain rfl := keyword_inj hname
      exact ⟨rfl, rfl⟩
    | unresolved reason note => exact absurd hname (keyword_ne_unresolved kind reason)
  | unresolved reason note =>
    cases ushape with
    | object space name => cases hobject
    | scalar kind => exact absurd hname.symm (keyword_ne_unresolved kind reason)
    | unresolved reason' note' => exact ⟨rfl, rfl⟩

theorem hintName?_ne_of_name {t u : TypeValue} (ht : t.isObject = true) (hu : u.isObject = false)
    (hname : t.name = u.name) : t.hintName? ≠ u.hintName? := by
  obtain ⟨tshape, tnull⟩ := t
  obtain ⟨ushape, unull⟩ := u
  cases tshape with
  | scalar kind => cases ht
  | unresolved reason note => cases ht
  | object space name =>
    cases ushape with
    | object space' name' => cases hu
    | unresolved reason note => simp [hintName?]
    | scalar kind =>
      intro hhint
      have hhint := Option.some.inj hhint
      split at hhint
      · next hbuiltin =>
        simp only [isBuiltin, Bool.and_eq_true, Bool.or_eq_true, beq_iff_eq] at hbuiltin
        obtain ⟨-, rfl | rfl⟩ := hbuiltin
        · cases kind <;> exact absurd hhint (by decide)
        · cases kind <;> exact absurd hhint (by decide)
      · -- with a backslash in front a name is longer than without
        have hlength := congrArg String.length (hhint.trans hname.symm)
        rw [String.length_append] at hlength
        have hone : "\\".length = 1 := by decide
        omega

end TypeValue

/-! ### Traces -/

namespace Trace

open TypeValue

theorem FunctionName.backslash_not_mem_of_readLocal? {space : String} {cs : List Char}
    {f : FunctionName} (h : readLocal? space cs = some f) (hkind : f.kind = .function) :
    '\\' ∉ f.function.toList := by
  unfold readLocal? at h
  simp only at h
  split at h
  · cases h
  · split at h
    · cases h
      intro hmem
      rw [String.toList_ofList] at hmem
      have hpart := List.all_eq_true.mp List.all_takeWhile _ hmem
      exact absurd hpart (by decide)
    · split at h <;> cases h
      cases hkind
    · split at h <;> cases h
      cases hkind
    · cases h

theorem FunctionName.backslash_not_mem_of_read? {text : String} {f : FunctionName}
    (h : read? text = some f) (hkind : f.kind = .function) : '\\' ∉ f.function.toList := by
  unfold read? at h
  simp only at h
  split at h
  · cases h
    cases hkind
  · unfold readPlain? at h
    simp only at h
    split at h
    · exact backslash_not_mem_of_readLocal? h hkind
    · cases h

theorem shortNamed_objectType (name : List Char) : (objectType name).ShortNamed := by
  unfold objectType
  split
  · next h => exact shortNamed_object (FunctionName.backslash_not_mem_of_read? h rfl)
  · exact shortNamed_of_not_object rfl

theorem shortNamed_valueType (raw : String) : (valueType raw).ShortNamed := by
  have hscalar : ∀ kind, (scalar kind).ShortNamed := fun kind => shortNamed_of_not_object rfl
  unfold valueType
  simp only
  split
  · exact hscalar .string
  split
  · exact shortNamed_array
  split
  · exact shortNamed_callable
  split
  · exact hscalar .bool
  split
  · exact hscalar .int
  split
  · exact hscalar .float
  split
  · exact shortNamed_of_not_object rfl
  · exact shortNamed_objectType _

end Trace

/-! ### Doc comments -/

namespace DocType

open TypeValue

variable (owner scope : ClassInfo) (index : Index)

theorem shortNamed_resolveBare (text : List Char) :
    (resolveBare text owner scope index).ShortNamed := by
  unfold resolveBare
  simp only
  split
  · exact shortNamed_of_not_object rfl
  split
  · exact shortNamed_array
  split
  · exact shortNamed_ofClass owner.name
  split
  · exact shortNamed_array
  split
  · exact shortNamed_callable
  split
  · exact shortNamed_of_not_object rfl
  · split
    · exact shortNamed_of_not_object rfl
    · exact shortNamed_ofClass _

theorem shortNamed_resolveWithin (steps : Nat) :
    ∀ (raw : List Char) (t : TypeValue), resolveWithin owner scope index steps raw = some t →
      t.ShortNamed := by
  induction steps with
  | zero =>
    intro raw t h
    cases h
  | succ steps ih =>
    intro raw t h
    unfold resolveWithin at h
    split at h
    · cases h
    · obtain ⟨inner, hinner, rfl⟩ := Option.map_eq_some_iff.mp h
      exact (ih _ inner hinner).orNull
    · cases h
      exact shortNamed_resolveBare owner scope index _

theorem shortNamed_resolve {text : String} {t : TypeValue}
    (h : resolve text owner scope index = some t) :
    t.ShortNamed :=
  shortNamed_resolveWithin owner scope index _ _ t h

end DocType
end SignatureInference
