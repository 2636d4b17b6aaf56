import Mathlib.Data.List.Induction
import SignatureInference.Proofs.ClassName
import SignatureInference.Proofs.TypeValue

/-! # Segments of class names

Blanks around a name and backslashes around its namespace do not change the parts of the name that
are not empty. So objects whose types have the same name are of the same class, if the name of the
class is well-formed.
-/
namespace SignatureInference

namespace ClassName

/-- The parts of a name that are not empty, blanks left out. -/
def segments (cs : List Char) : List (List Char) :=
  (Text.splitWhere (· == '\\') (cs.filter (!Text.isBlank ·))).filter (!·.isEmpty)

theorem segments_append (u v : List Char) :
    segments (u ++ '\\' :: v) = segments u ++ segments v := by
  rw [segments, List.filter_append, List.filter_cons_of_pos (by decide),
    Text.splitWhere_append (by rfl), List.filter_append]
  rfl

theorem segments_dropLeadingBackslashes (cs : List Char) :
    segments (dropLeadingBackslashes cs) = segments cs := by
  induction cs with
  | nil => rfl
  | cons c cs ih =>
    by_cases hc : c = '\\'
    · subst hc
      exact ih.trans (segments_append [] cs).symm
    · rw [dropLeadingBackslashes, List.dropWhile_cons_of_neg (by simpa using hc)]

theorem segments_dropEndBackslashes (cs : List Char) :
    segments (Text.dropEndWhile (· == '\\') cs) = segments cs := by
  induction cs using List.reverseRecOn with
  | nil => rfl
  | append_singleton cs c ih =>
    by_cases hc : c = '\\'
    · subst hc
      have hdrop : Text.dropEndWhile (· == '\\') (cs ++ ['\\']) =
          Text.dropEndWhile (· == '\\') cs := by
        simp [Text.dropEndWhile]
      have hnil : segments [] = [] := rfl
      rw [hdrop, ih, segments_append, hnil, List.append_nil]
    · rw [Text.dropEndWhile_of_last (by simpa using hc)]

theorem segments_dropOuterBackslashes (cs : List Char) :
    segments (dropOuterBackslashes cs) = segments cs := by
  rw [dropOuterBackslashes, segments_dropEndBackslashes, segments_dropLeadingBackslashes]

theorem filter_dropWhile_blank (cs : List Char) :
    (cs.dropWhile Text.isBlank).filter (!Text.isBlank ·) = cs.filter (!Text.isBlank ·) := by
  induction cs with
  | nil => rfl
  | cons c cs ih =>
    by_cases hc : Text.isBlank c = true
    · rw [List.dropWhile_cons_of_pos hc, ih, List.filter_cons_of_neg (by simp [hc])]
    · rw [List.dropWhile_cons_of_neg hc]

theorem segments_trim (cs : List Char) : segments (Text.trim cs) = segments cs := by
  have htrim : (Text.trim cs).filter (!Text.isBlank ·) = cs.filter (!Text.isBlank ·) := by
    rw [Text.trim, Text.trimEnd, Text.dropEndWhile, List.filter_reverse, filter_dropWhile_blank,
      List.filter_reverse, List.reverse_reverse, Text.trimStart, filter_dropWhile_blank]
  rw [segments, htrim]
  rfl

theorem segments_ofText (text : String) :
    segments (ofText text).text.toList = segments text.toList := by
  rw [ofText, Text.onString, String.toList_ofList, segments_dropLeadingBackslashes, segments_trim]

theorem segments_of_wellFormed {c : ClassName} (h : c.WellFormed) :
    segments c.text.toList = Text.splitWhere (· == '\\') c.text.toList := by
  have hblank : c.text.toList.filter (!Text.isBlank ·) = c.text.toList :=
    List.filter_eq_self.mpr fun d hd => by rw [not_blank_of_isQualified h d hd]; rfl
  rw [segments, hblank, List.filter_eq_self]
  intro part hpart
  have hall := List.all_eq_true.mp h part hpart
  exact (Bool.and_eq_true _ _ ▸ hall).1

theorem eq_of_segments {c d : ClassName} (hc : c.WellFormed) (hd : d.WellFormed)
    (h : segments c.text.toList = segments d.text.toList) : c = d := by
  rw [segments_of_wellFormed hc, segments_of_wellFormed hd] at h
  have htext := congrArg (['\\'].intercalate ·) h
  simp only [Text.intercalate_splitWhere] at htext
  cases c
  cases d
  rw [ClassName.mk.injEq]
  exact String.toList_inj.mp htext

end ClassName

namespace TypeValue

theorem segments_className {t : TypeValue} {c : ClassName} (h : t.className? = some c) :
    ClassName.segments c.text.toList = ClassName.segments t.name.toList := by
  obtain ⟨shape, nullable⟩ := t
  cases shape with
  | scalar kind => cases h
  | unresolved reason note => cases h
  | object space name =>
    rw [className?] at h
    simp only at h
    split at h
    · cases h
    · cases h
      rw [ClassName.ofParts, TypeValue.name]
      by_cases hspace : (space == "") = true
      · simp only [if_pos hspace]
        exact ClassName.segments_ofText name
      · simp only [if_neg hspace]
        rw [ClassName.segments_ofText]
        have hjoin : ∀ s : String, (s ++ "\\" ++ name).toList =
            s.toList ++ '\\' :: name.toList := by simp
        rw [hjoin, hjoin, ClassName.segments_append, ClassName.segments_append, Text.onString,
          String.toList_ofList, ClassName.segments_dropOuterBackslashes]

/-- Objects of the same name are of the same class, if its name is well-formed. -/
theorem className_eq_of_name {t u : TypeValue} {c d : ClassName} (ht : t.className? = some c)
    (hu : u.className? = some d) (hc : c.WellFormed) (hd : d.WellFormed)
    (hname : t.name = u.name) : c = d := by
  apply ClassName.eq_of_segments hc hd
  rw [segments_className ht, segments_className hu, hname]

end TypeValue
end SignatureInference
