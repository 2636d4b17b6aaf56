import SignatureInference.Proofs.ClassName
import SignatureInference.Trace.FunctionName

/-! # Qualified names

A namespace or the name of a type in it is written as identifiers with backslashes between them. The
identifiers are read back from the text.
-/
namespace SignatureInference

def namespaceWord : List Char := "namespace".toList

def classWord : List Char := "class".toList

namespace Trace

open Text

def joined (parts : List (List Char)) : List Char := List.intercalate ['\\'] parts

/-- The name of a type: identifiers with backslashes between them. -/
structure QualifiedName where
  parts : List (List Char)
  parts_ne_nil : parts ≠ []
  isIdentifier : ∀ part ∈ parts, FunctionName.isIdentifier part = true

def QualifiedName.text (name : QualifiedName) : String := String.ofList (joined name.parts)

def QualifiedName.outer (name : QualifiedName) : String :=
  String.ofList (joined name.parts.dropLast)

def QualifiedName.short (name : QualifiedName) : String :=
  String.ofList (name.parts.getLast name.parts_ne_nil)

section

variable {parts : List (List Char)} {part : List Char}

@[simp] theorem joined_singleton (part : List Char) : joined [part] = part :=
  List.intercalate_singleton

theorem joined_cons (part : List Char) (hparts : parts ≠ []) :
    joined (part :: parts) = part ++ '\\' :: joined parts := by
  cases parts with
  | nil => exact absurd rfl hparts
  | cons next parts => simp [joined, List.intercalate_cons_cons]

theorem joined_append {more : List (List Char)} (hparts : parts ≠ []) (hmore : more ≠ []) :
    joined (parts ++ more) = joined parts ++ '\\' :: joined more :=
  intercalate_append hparts hmore

theorem isIdentPart_of_mem (h : FunctionName.isIdentifier part = true) :
    ∀ c ∈ part, isIdentPart c = true := by
  rw [FunctionName.isIdentifier, Bool.and_eq_true, List.all_eq_true] at h
  exact h.2

theorem backslash_not_mem (h : FunctionName.isIdentifier part = true) : '\\' ∉ part := by
  intro hmem
  have := isIdentPart_of_mem h _ hmem
  revert this
  decide

theorem splitWhere_joined (hne : parts ≠ []) (h : ∀ part ∈ parts, '\\' ∉ part) :
    splitWhere (· == '\\') (joined parts) = parts :=
  splitWhere_intercalate hne h

variable (hne : parts ≠ []) (hparts : ∀ part ∈ parts, FunctionName.isIdentifier part = true)

include hne hparts

theorem isQualified_joined : ClassName.isQualified (joined parts) = true := by
  apply ClassName.isQualified_intercalate hne
  intro part hpart
  have hidentifier := hparts part hpart
  refine ⟨?_, backslash_not_mem hidentifier, fun c hc => ?_⟩
  · rintro rfl
    cases hidentifier
  · exact isBlank_of_isIdentPart (isIdentPart_of_mem hidentifier c hc)

theorem isPart_of_mem_joined : ∀ c ∈ joined parts, (isIdentPart c || c == '\\') = true := by
  intro c hc
  rcases mem_splitWhere (p := (· == '\\')) hc with hslash | ⟨part, hpart, hmem⟩
  · rw [hslash, Bool.or_true]
  · rw [splitWhere_joined hne fun part hpart => backslash_not_mem (hparts part hpart)] at hpart
    rw [isIdentPart_of_mem (hparts part hpart) c hmem, Bool.true_or]

theorem exists_cons_joined : ∃ c cs, joined parts = c :: cs ∧ isIdentStart c = true ∧ c ≠ '\\' := by
  cases parts with
  | nil => exact absurd rfl hne
  | cons part parts =>
    have hidentifier := hparts part List.mem_cons_self
    rw [FunctionName.isIdentifier, Bool.and_eq_true] at hidentifier
    cases part with
    | nil => cases hidentifier.1
    | cons c part =>
      have hstart : isIdentStart c = true := hidentifier.1
      have hslash : c ≠ '\\' := by
        rintro rfl
        revert hstart
        decide
      by_cases hnil : parts = []
      · subst hnil
        exact ⟨c, part, joined_singleton _, hstart, hslash⟩
      · exact ⟨c, _, joined_cons _ hnil, hstart, hslash⟩

end

theorem QualifiedName.toList_text (name : QualifiedName) : name.text.toList = joined name.parts :=
  String.toList_ofList

theorem QualifiedName.splitWhere_text (name : QualifiedName) :
    splitWhere (· == '\\') (joined name.parts) = name.parts :=
  splitWhere_joined name.parts_ne_nil fun part hpart =>
    backslash_not_mem (name.isIdentifier part hpart)

theorem QualifiedName.text_inj {a b : QualifiedName} (h : a.text = b.text) : a.parts = b.parts := by
  have hjoined : joined a.parts = joined b.parts := String.ofList_injective h
  rw [← a.splitWhere_text, hjoined, b.splitWhere_text]

end Trace

end SignatureInference
