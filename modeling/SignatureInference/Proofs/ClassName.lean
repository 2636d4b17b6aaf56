import SignatureInference.ClassName
import SignatureInference.Proofs.Text.Splitting
import SignatureInference.Proofs.Text.Trimming

/-! # Parts of class names

A class name is put together again from its namespace and its short name, and is read as itself, as
long as no part of it is empty and no part has a blank in it.
-/
namespace SignatureInference

namespace ClassName

/-- Whether a text is made of parts with a backslash between them, none empty and none with a
blank. -/
def isQualified (cs : List Char) : Bool :=
  (Text.splitWhere (· == '\\') cs).all fun part => !part.isEmpty && part.all (!Text.isBlank ·)

/-- The parts of the name are not empty and have no blanks. -/
def WellFormed (c : ClassName) : Prop := isQualified c.text.toList = true

instance (c : ClassName) : Decidable c.WellFormed := inferInstanceAs (Decidable (_ = true))

def IsSegment (part : List Char) : Prop :=
  part ≠ [] ∧ '\\' ∉ part ∧ ∀ c ∈ part, Text.isBlank c = false

instance (part : List Char) : Decidable (IsSegment part) := inferInstanceAs (Decidable (_ ∧ _ ∧ _))

theorem isQualified_intercalate {parts : List (List Char)} (hne : parts ≠ [])
    (h : ∀ part ∈ parts, IsSegment part) : isQualified (['\\'].intercalate parts) = true := by
  rw [isQualified, Text.splitWhere_intercalate hne fun part hpart => (h part hpart).2.1,
    List.all_eq_true]
  intro part hpart
  obtain ⟨hempty, -, hblank⟩ := h part hpart
  simpa [hempty] using hblank

theorem isQualified_append (u v : List Char) :
    isQualified (u ++ '\\' :: v) = (isQualified u && isQualified v) := by
  rw [isQualified, Text.splitWhere_append (by rfl), List.all_append, isQualified, isQualified]

section

variable {cs u v : List Char}

theorem not_blank_of_isQualified (h : isQualified cs = true) :
    ∀ c ∈ cs, Text.isBlank c = false := by
  intro c hc
  rcases Text.mem_splitWhere (p := (· == '\\')) hc with hsep | ⟨part, hpart, hmem⟩
  · rw [beq_iff_eq.mp hsep]
    decide
  · have hall := List.all_eq_true.mp h part hpart
    rw [Bool.and_eq_true, List.all_eq_true] at hall
    simpa using hall.2 c hmem

theorem ends_of_isQualified (h : isQualified cs = true) :
    cs.head?.any (· == '\\') = false ∧ cs.getLast?.any (· == '\\') = false := by
  have hempty : isQualified [] = false := rfl
  constructor
  · cases cs with
    | nil => rfl
    | cons c cs =>
      rw [List.head?_cons, Option.any_some, beq_eq_false_iff_ne]
      rintro rfl
      have happend := isQualified_append [] cs
      rw [List.nil_append, h, hempty, Bool.false_and] at happend
      cases happend
  · cases hlast : cs.getLast? with
    | none => rfl
    | some c =>
      rw [Option.any_some, beq_eq_false_iff_ne]
      rintro rfl
      obtain ⟨u, rfl⟩ := List.getLast?_eq_some_iff.mp hlast
      rw [isQualified_append, hempty, Bool.and_false] at h
      cases h

theorem dropOuterBackslashes_ne_nil {c : Char} {cs : List Char} (h : c ≠ '\\') :
    dropOuterBackslashes (c :: cs) ≠ [] := by
  have hhead : (c :: cs).dropWhile (· == '\\') = c :: cs := by
    rw [List.dropWhile_cons, if_neg (by simpa using h)]
  rw [dropOuterBackslashes, dropLeadingBackslashes, hhead, Text.dropEndWhile]
  intro hnil
  have hall := List.dropWhile_eq_nil_iff.mp (List.reverse_eq_nil_iff.mp hnil)
  exact h (by simpa using hall c (by simp))

theorem dropOuterBackslashes_of_isQualified (h : isQualified cs = true) :
    dropOuterBackslashes cs = cs := by
  obtain ⟨hhead, hlast⟩ := ends_of_isQualified h
  rw [dropOuterBackslashes, dropLeadingBackslashes, Text.dropWhile_of_head hhead,
    Text.dropEndWhile_of_last hlast]

end

theorem ofText_text {c : ClassName} (h : c.WellFormed) : ofText c.text = c := by
  rw [ofText, Text.onString, Text.trim_of_no_blank (not_blank_of_isQualified h),
    dropLeadingBackslashes, Text.dropWhile_of_head (ends_of_isQualified h).1, String.ofList_toList]

/-- A name has no namespace, or it is the namespace and the short name around its last backslash. -/
theorem parts_cases (c : ClassName) :
    ('\\' ∉ c.text.toList ∧ c.namespaceName = "" ∧ c.shortName = c.text) ∨
      ∃ u v, c.text.toList = u ++ '\\' :: v ∧ '\\' ∉ v ∧
        c.namespaceName = String.ofList u ∧ c.shortName = String.ofList v := by
  cases hbreak : Text.breakOnLast? ['\\'] c.text.toList with
  | none =>
    left
    exact ⟨Text.breakOnLast?_eq_none.mp hbreak,
      by rw [namespaceName, hbreak], by rw [shortName, hbreak]⟩
  | some parts =>
    right
    obtain ⟨htext, hname⟩ := Text.breakOnLast?_eq_some.mp hbreak
    exact ⟨parts.1, parts.2, htext, hname, by rw [namespaceName, hbreak], by rw [shortName, hbreak]⟩

theorem backslash_not_mem_shortName (c : ClassName) : '\\' ∉ c.shortName.toList := by
  rcases c.parts_cases with ⟨hnone, -, hshort⟩ | ⟨u, v, -, hv, -, hshort⟩
  · rwa [hshort]
  · rwa [hshort, String.toList_ofList]

/-- A well-formed name has no namespace, or one that is not empty and well-formed itself. -/
theorem WellFormed.parts_cases {c : ClassName} (h : c.WellFormed) :
    (c.namespaceName = "" ∧ c.shortName = c.text) ∨
      (c.namespaceName ≠ "" ∧ isQualified c.namespaceName.toList = true ∧
        c.namespaceName ++ "\\" ++ c.shortName = c.text) := by
  rcases c.parts_cases with ⟨-, hspace, hshort⟩ | ⟨u, v, htext, -, hspace, hshort⟩
  · exact .inl ⟨hspace, hshort⟩
  · have hu : isQualified u = true := by
      have hall : isQualified c.text.toList = true := h
      rw [htext, isQualified_append, Bool.and_eq_true] at hall
      exact hall.1
    right
    refine ⟨?_, ?_, ?_⟩
    · rw [hspace, Ne, ← String.toList_inj, String.toList_ofList]
      rintro rfl
      cases hu
    · rwa [hspace, String.toList_ofList]
    · rw [hspace, hshort, ← String.toList_inj, String.toList_append, String.toList_append,
        String.toList_ofList, String.toList_ofList, htext]
      simp

theorem ofParts_parts {c : ClassName} (h : c.WellFormed) :
    ofParts c.namespaceName c.shortName = c := by
  rcases h.parts_cases with ⟨hspace, hshort⟩ | ⟨hspace, hqualified, hjoined⟩
  · rw [hspace, hshort, ofParts, if_pos (beq_self_eq_true ""), ofText_text h]
  · rw [ofParts, if_neg (by simpa using hspace), Text.onString,
      dropOuterBackslashes_of_isQualified hqualified, String.ofList_toList, hjoined, ofText_text h]

end ClassName
end SignatureInference
