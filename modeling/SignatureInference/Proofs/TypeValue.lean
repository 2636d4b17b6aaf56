import SignatureInference.Proofs.ClassName
import SignatureInference.TypeValue

/-! # Types and their classes

The type that is made of a class has the name of the class and describes its objects, unless the
class has the name of a built-in type.
-/
namespace SignatureInference.TypeValue

@[simp] theorem name_orNull (t : TypeValue) : t.orNull.name = t.name := rfl

@[simp] theorem className?_orNull (t : TypeValue) : t.orNull.className? = t.className? := rfl

@[simp] theorem isBuiltin_orNull (t : TypeValue) : t.orNull.isBuiltin = t.isBuiltin := rfl

theorem className?_of_isBuiltin {t : TypeValue} (h : t.isBuiltin = true) : t.className? = none := by
  unfold className?
  cases t.shape with
  | object space name => exact if_pos h
  | scalar kind => rfl
  | unresolved reason note => rfl

/-- The type stands for the class: it describes the objects of the class, or it is the built-in type
that has the name of the class. -/
def StandsFor (t : TypeValue) (c : ClassName) : Prop :=
  t.className? = some c ∨ t.isBuiltin = true ∧ t.name = c.text

@[simp] theorem standsFor_orNull (t : TypeValue) (c : ClassName) :
    t.orNull.StandsFor c ↔ t.StandsFor c :=
  .rfl

theorem name_ofClass {c : ClassName} (h : c.WellFormed) : (ofClass c).name = c.text := by
  rcases h.parts_cases with ⟨hspace, hshort⟩ | ⟨hspace, -, hjoined⟩
  · simp [name, ofClass, object, hspace, hshort]
  · simp [name, ofClass, object, hspace, ← hjoined]

theorem className?_ofClass {c : ClassName} (h : c.WellFormed) :
    (ofClass c).className? = if (ofClass c).isBuiltin then none else some c := by
  rw [className?, ofClass, object]
  simp only [ClassName.ofParts_parts h]

theorem standsFor_ofClassText {c : ClassName} (h : c.WellFormed) :
    (ofClassText c.text).StandsFor c := by
  rw [ofClassText, ClassName.ofText_text h]
  by_cases hbuiltin : (ofClass c).isBuiltin = true
  · exact .inr ⟨hbuiltin, name_ofClass h⟩
  · left
    rw [className?_ofClass h, if_neg hbuiltin]

end SignatureInference.TypeValue
