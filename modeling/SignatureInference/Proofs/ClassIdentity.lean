import SignatureInference.ClassInfo
import SignatureInference.Instruction
import SignatureInference.Proofs.TypeValue

/-! # The identity of a class

A class is known by its name, by the namespace and the short name apart, by the type of its objects
and by the lines of reports. Each of these determines the name, so they all speak of the same class.
-/
namespace SignatureInference

namespace ClassName

def ofSegments (parts : List (List Char)) : ClassName := ⟨String.ofList (['\\'].intercalate parts)⟩

section

variable {parts : List (List Char)} {part : List Char}

theorem toList_text_ofSegments (parts : List (List Char)) :
    (ofSegments parts).text.toList = ['\\'].intercalate parts :=
  String.toList_ofList

theorem wellFormed_ofSegments (hne : parts ≠ []) (h : ∀ part ∈ parts, IsSegment part) :
    (ofSegments parts).WellFormed := by
  rw [WellFormed, toList_text_ofSegments]
  exact isQualified_intercalate hne h

theorem breakOnLast?_ofSegments (hne : parts ≠ []) (hpart : '\\' ∉ part) :
    Text.breakOnLast? ['\\'] (ofSegments (parts ++ [part])).text.toList =
      some (['\\'].intercalate parts, part) := by
  rw [toList_text_ofSegments, Text.breakOnLast?_eq_some]
  refine ⟨?_, hpart⟩
  rw [Text.intercalate_append hne (List.cons_ne_nil _ _), List.intercalate_singleton]

theorem parts_ofSegments (hpart : '\\' ∉ part) :
    (ofSegments (parts ++ [part])).namespaceName = (ofSegments parts).text ∧
      (ofSegments (parts ++ [part])).shortName = String.ofList part := by
  by_cases hnil : parts = []
  · subst hnil
    have hbreak : Text.breakOnLast? ['\\'] (ofSegments ([] ++ [part])).text.toList = none := by
      rwa [toList_text_ofSegments, Text.breakOnLast?_eq_none, List.nil_append,
        List.intercalate_singleton]
    rw [namespaceName, shortName, hbreak]
    exact ⟨rfl, by rw [ofSegments, List.nil_append, List.intercalate_singleton]⟩
  · rw [namespaceName, shortName, breakOnLast?_ofSegments hnil hpart]
    exact ⟨rfl, rfl⟩

end

theorem ofText_backslashes {c : ClassName} (h : c.WellFormed) (k : Nat) :
    ofText (String.ofList (List.replicate k '\\') ++ c.text) = c := by
  have hslash : ∀ s ∈ List.replicate k '\\', s = '\\' := fun s hs => List.eq_of_mem_replicate hs
  have hblank : ∀ s ∈ List.replicate k '\\' ++ c.text.toList, Text.isBlank s = false := by
    intro s hs
    rcases List.mem_append.mp hs with hs | hs
    · rw [hslash s hs]
      decide
    · exact not_blank_of_isQualified h s hs
  rw [ofText, Text.onString, String.toList_append, String.toList_ofList,
    Text.trim_of_no_blank hblank, dropLeadingBackslashes,
    Text.dropWhile_append_of_head (fun s hs => beq_iff_eq.mpr (hslash s hs))
      (ends_of_isQualified h).1, String.ofList_toList]

end ClassName

namespace TypeValue

variable {c : ClassName}

theorem isBuiltin_ofClass (h : c.WellFormed) :
    (ofClass c).isBuiltin = true ↔ c.text = "array" ∨ c.text = "callable" := by
  rcases h.parts_cases with ⟨hspace, hshort⟩ | ⟨hspace, -, hjoined⟩
  · simp [isBuiltin, ofClass, object, hspace, hshort]
  · have hslash : '\\' ∈ c.text.toList := by
      rw [← hjoined]
      simp
    constructor
    · intro hbuiltin
      simp [isBuiltin, ofClass, object, hspace] at hbuiltin
    · rintro (htext | htext) <;>
        · rw [htext] at hslash
          exact absurd hslash (by decide)

theorem hintName?_ofClass (h : c.WellFormed) :
    (ofClass c).hintName? = some (if (ofClass c).isBuiltin then c.text else "\\" ++ c.text) := by
  have hname := name_ofClass h
  have hhint : (ofClass c).hintName? =
      some (if (ofClass c).isBuiltin then c.shortName else "\\" ++ (ofClass c).name) := rfl
  rw [hhint, hname]
  rcases h.parts_cases with ⟨-, hshort⟩ | ⟨hspace, -, -⟩
  · rw [hshort]
  · have hbuiltin : (ofClass c).isBuiltin = false := by simp [isBuiltin, ofClass, object, hspace]
    rw [hbuiltin]
    rfl

end TypeValue

/-- The class that a line of a report names, its two parts joined. -/
def Instruction.Listing.qualifiedName (l : Instruction.Listing) : String :=
  if l.namespaceName = "" then l.className else l.namespaceName ++ "\\" ++ l.className

theorem Instruction.qualifiedName_listing {i : Instruction} (h : i.className.WellFormed) :
    i.listing.qualifiedName = i.className.text := by
  have hparts : i.listing.namespaceName = i.className.namespaceName ∧
      i.listing.className = i.className.shortName :=
    ⟨rfl, rfl⟩
  rw [Listing.qualifiedName, hparts.1, hparts.2]
  rcases h.parts_cases with ⟨hspace, hshort⟩ | ⟨hspace, -, hjoined⟩
  · rw [if_pos hspace, hshort]
  · rw [if_neg hspace, hjoined]

/-- A class keeps its identity in all its representations. Its name is read as itself whatever
backslashes are in front, and is put together again from the namespace and the short name, which are
the segments before the last one and the last one. The type of its objects is the same whether it is
made of the name or of the known class, has the name of the class and describes just this class,
unless the name is that of a built-in type. The two parts of the class in a report join to the
name. -/
theorem ClassName.identity_preserved {parts : List (List Char)} (hne : parts ≠ [])
    (hparts : ∀ part ∈ parts, IsSegment part) :
    let c := ofSegments parts
    let t := TypeValue.ofClassText c.text
    (∀ k, ofText (String.ofList (List.replicate k '\\') ++ c.text) = c) ∧
      (c.namespaceName = (ofSegments parts.dropLast).text ∧
        c.shortName = String.ofList (parts.getLast hne)) ∧
      ofParts c.namespaceName c.shortName = c ∧
      (∀ known : ClassInfo, known.name = c → known.type = t) ∧
      t.name = c.text ∧
      t.className? = (if c.text = "array" ∨ c.text = "callable" then none else some c) ∧
      t.hintName? =
        some (if c.text = "array" ∨ c.text = "callable" then c.text else "\\" ++ c.text) ∧
      ∀ i : Instruction, i.className = c → i.listing.qualifiedName = c.text := by
  intro c t
  have hformed : c.WellFormed := wellFormed_ofSegments hne hparts
  have hlast : '\\' ∉ parts.getLast hne := (hparts _ (List.getLast_mem hne)).2.1
  have hcut := @parts_ofSegments parts.dropLast _ hlast
  rw [List.dropLast_append_getLast] at hcut
  have htype : t = TypeValue.ofClass c := congrArg TypeValue.ofClass (ofText_text hformed)
  have hbuiltin := TypeValue.isBuiltin_ofClass hformed
  rw [htype]
  refine ⟨ofText_backslashes hformed, hcut, ofParts_parts hformed, ?_,
    TypeValue.name_ofClass hformed, ?_, ?_, ?_⟩
  · intro known hknown
    rw [ClassInfo.type, hknown]
  · rw [TypeValue.className?_ofClass hformed]
    simp only [hbuiltin]
  · rw [TypeValue.hintName?_ofClass hformed]
    simp only [hbuiltin]
  · intro i hi
    rw [← hi]
    exact Instruction.qualifiedName_listing (hi ▸ hformed)

theorem ClassName.identity_preserved_nested :
    let parts := ["App".toList, "array".toList, "Größe".toList]
    (parts ≠ [] ∧ ∀ part ∈ parts, IsSegment part) ∧
      (ofSegments parts).text = "App\\array\\Größe" ∧
      ofText "\\\\App\\array\\Größe" = ofSegments parts ∧
      (ofSegments parts).namespaceName = "App\\array" ∧
      (TypeValue.ofClassText "App\\array\\Größe").className? = some (ofSegments parts) ∧
      (TypeValue.ofClassText "App\\array\\Größe").hintName? = some "\\App\\array\\Größe" := by
  intro parts
  have hne : parts ≠ [] := by decide
  have hparts : ∀ part ∈ parts, IsSegment part := by decide
  have htext : (ofSegments parts).text = "App\\array\\Größe" := by decide
  have hbuiltin : ¬("App\\array\\Größe" = "array" ∨ "App\\array\\Größe" = "callable") := by decide
  obtain ⟨hread, ⟨hspace, -⟩, -, -, -, hclass, hhint, -⟩ := identity_preserved hne hparts
  simp only [htext, if_neg hbuiltin] at hread hclass hhint
  exact ⟨⟨hne, hparts⟩, htext, hread 2, hspace.trans (by decide), hclass, hhint.trans (by decide)⟩

end SignatureInference
