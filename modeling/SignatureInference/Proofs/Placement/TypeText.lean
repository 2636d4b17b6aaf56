import SignatureInference.Proofs.Placement.Parameters
import SignatureInference.Proofs.Source.Seam
import SignatureInference.Proofs.Text.Splitting

/-! # The texts of types

A type is written as a keyword or as a class name with a backslash in front of each of its parts,
and perhaps with a question mark in front of it all. In front of a variable such a text is read as a
type. It makes no header with what follows it, with one exception: a name that ends in `function`
does in front of a reference.
-/
namespace SignatureInference.Placement

open Text Source

def typeWords : List String := ["int", "float", "string", "bool", "array", "callable"]

def isIdentifier : List Char → Bool
  | [] => false
  | c :: cs => isIdentStart c && cs.all isIdentPart

/-- A type word, or identifiers with a backslash in front of each. -/
def isTypeName : List Char → Bool
  | '\\' :: cs => (splitWhere (· == '\\') cs).all isIdentifier
  | cs => typeWords.any (·.toList == cs)

/-- A type name, perhaps with a question mark in front. -/
def isTypeText : List Char → Bool
  | '?' :: cs => isTypeName cs
  | cs => isTypeName cs

def isTypeLetter (c : Char) : Bool := isIdentPart c || c == '\\' || c == '?'

theorem isIdentPart_of_isIdentifier {cs : List Char} (h : isIdentifier cs = true) {c : Char}
    (hc : c ∈ cs) : isIdentPart c = true := by
  cases cs with
  | nil => cases hc
  | cons d cs =>
    simp only [isIdentifier, isIdentStart, Bool.and_eq_true, List.all_eq_true] at h
    rcases List.mem_cons.mp hc with rfl | hc
    · have hstart := h.1
      simp only [Bool.or_eq_true] at hstart
      rcases hstart with hstart | hstart
      · exact isIdentPart_of_isAlpha hstart
      · simp [isIdentPart, hstart]
    · exact h.2 c hc

theorem isTypeLetter_of_isTypeName {t : List Char} (h : isTypeName t = true) :
    ∀ c ∈ t, isTypeLetter c = true := by
  unfold isTypeName at h
  split at h
  · next cs =>
    intro c hc
    rcases List.mem_cons.mp hc with rfl | hc
    · decide
    · rcases mem_splitWhere (p := (· == '\\')) hc with hsep | ⟨piece, hpiece, hmem⟩
      · simp [isTypeLetter, eq_of_beq hsep]
      · have := isIdentPart_of_isIdentifier (List.all_eq_true.mp h piece hpiece) hmem
        simp [isTypeLetter, this]
  · have hwords : ∀ w ∈ typeWords, w.toList.all isTypeLetter = true := by decide
    obtain ⟨w, hw, he⟩ := List.any_eq_true.mp h
    rw [← eq_of_beq he]
    exact List.all_eq_true.mp (hwords w hw)

theorem isTypeLetter_of_isTypeText {t : List Char} (h : isTypeText t = true) :
    ∀ c ∈ t, isTypeLetter c = true := by
  unfold isTypeText at h
  split at h
  · intro c hc
    rcases List.mem_cons.mp hc with rfl | hc
    · decide
    · exact isTypeLetter_of_isTypeName h c hc
  · exact isTypeLetter_of_isTypeName h

theorem isBlank_of_isTypeLetter {c : Char} (h : isTypeLetter c = true) : isBlank c = false := by
  by_contra hb
  have hb : isBlank c = true := by simpa using hb
  simp only [isTypeLetter, Bool.or_eq_true, beq_iff_eq] at h
  rcases h with (h | rfl) | rfl
  · have := isWordPart_of_isIdentPart h
    rw [isWordPart_of_isBlank hb] at this
    cases this
  · revert hb
    decide
  · revert hb
    decide

/-! ## Reading a type in front of a variable -/

theorem beginsVariable_cons {c : Char} (hc : c ∉ ['$', '&', '.']) (s : List Char) :
    beginsVariable (c :: s) = false := by
  simp only [List.mem_cons, List.not_mem_nil, or_false, not_or] at hc
  simp [beginsVariable, startsWith, dropHead?, hc, Ne.symm]

theorem variableOffset_cons {c : Char} (hblank : isBlank c = false) (hword : isWordPart c = false)
    (hvariable : c ∉ ['$', '&', '.']) (s : List Char) :
    variableOffset (c :: s) = .error .parameterHasType := by
  rw [variableOffset, fromType?_cons hblank hword]
  simp [beginsVariable_cons hvariable]

theorem variableOffset_typeWord {w : String} (hw : w ∈ typeWords) (s : List Char) :
    variableOffset (w.toList ++ ' ' :: s) = .error .parameterHasType := by
  have hwords : ∀ w ∈ typeWords, w.toList ≠ [] ∧ w.toList.all isTypeLetter = true ∧
      isPromotion (w.toList.takeWhile isWordPart) = false := by
    decide +kernel
  obtain ⟨hne, hletters, hpromotion⟩ := hwords w hw
  obtain ⟨c, cs, hcs⟩ := List.exists_cons_of_ne_nil hne
  have hletter := List.all_eq_true.mp hletters c (hcs ▸ List.mem_cons_self)
  have hblank := isBlank_of_isTypeLetter hletter
  have hvariable : c ∉ ['$', '&', '.'] := by
    intro hmem
    simp only [List.mem_cons, List.not_mem_nil, or_false] at hmem
    rcases hmem with rfl | rfl | rfl <;> exact absurd hletter (by decide)
  have htrim : trimStart (w.toList ++ ' ' :: s) = w.toList ++ ' ' :: s := by
    rw [hcs]
    exact trimStart_cons_of_not_blank hblank _
  have hfrom : fromType? (w.toList ++ ' ' :: s) = some (w.toList ++ ' ' :: s) := by
    rw [fromType?_eq, htrim, takeWhile_stop (isWordPart_of_isBlank (by decide)), hpromotion]
    simp
  rw [variableOffset, hfrom]
  simp [hcs, beginsVariable_cons hvariable]

theorem variableOffset_typeName {t : List Char} (h : isTypeName t = true) (s : List Char) :
    variableOffset (t ++ ' ' :: s) = .error .parameterHasType := by
  unfold isTypeName at h
  split at h
  · exact variableOffset_cons (by decide) (by decide +kernel) (by decide) _
  · obtain ⟨w, hw, he⟩ := List.any_eq_true.mp h
    rw [← eq_of_beq he]
    exact variableOffset_typeWord hw s

theorem variableOffset_typeText {t : List Char} (h : isTypeText t = true) (s : List Char) :
    variableOffset (t ++ ' ' :: s) = .error .parameterHasType := by
  unfold isTypeText at h
  split at h
  · exact variableOffset_cons (by decide) (by decide +kernel) (by decide) _
  · exact variableOffset_typeName h s

/-! ## No header begins in a type -/

section

variable {v g z : List Char} {e : Char}

theorem foldLetter_edge (he : isEdge e = true) {w : List Char} (hw : w.all Char.isAlpha = true) :
    foldLetter e ∉ w := by
  have hfold : (foldLetter e).isAlpha = false := by
    rcases isEdge_cases he with rfl | rfl | rfl | rfl | rfl <;> decide
  intro hmem
  rw [List.all_eq_true.mp hw _ hmem] at hfold
  cases hfold

theorem isNamePart_edge (he : isEdge e = true) : isNamePart e = false ∧ isNameStart e = false := by
  rcases isEdge_cases he with rfl | rfl | rfl | rfl | rfl <;> decide

theorem exists_cons_behind (hg : ∀ c ∈ g, isBlank c = true) (he : isEdge e = true) (z : List Char) :
    ∃ s y, g ++ e :: z = s :: y ∧ ∀ w : List Char, w.all Char.isAlpha = true →
      s ∉ w ∧ foldLetter s ∉ w := by
  cases g with
  | nil =>
    refine ⟨e, z, rfl, fun w hw => ⟨fun hmem => ?_, foldLetter_edge he hw⟩⟩
    have := List.all_eq_true.mp hw e hmem
    rcases isEdge_cases he with rfl | rfl | rfl | rfl | rfl <;> revert this <;> decide
  | cons b g =>
    have hb := hg b List.mem_cons_self
    refine ⟨b, g ++ e :: z, rfl, fun w hw => ⟨fun hmem => ?_, foldLetter_not_mem_of_isBlank hb ?_⟩⟩
    · have := isWordPart_of_isIdentPart (isIdentPart_of_isAlpha (List.all_eq_true.mp hw b hmem))
      rw [isWordPart_of_isBlank hb] at this
      cases this
    · intro d hd
      by_contra hblank
      have := isWordPart_of_isIdentPart (isIdentPart_of_isAlpha (List.all_eq_true.mp hw d hd))
      rw [isWordPart_of_isBlank (by simpa using hblank)] at this
      cases this

theorem dropBlanks?_behind (hv : ∀ c ∈ v, isTypeLetter c = true) (hg : ∀ c ∈ g, isBlank c = true)
    (he : isEdge e = true) {r : List Char} (h : dropBlanks? (v ++ (g ++ e :: z)) = some r) :
    r = e :: z := by
  have hblank : isBlank e = false := by
    rcases isEdge_cases he with rfl | rfl | rfl | rfl | rfl <;> decide
  cases v with
  | nil =>
    rw [exists_append_of_dropBlanks? h, List.nil_append, trimStart_blanks hg,
      trimStart_cons_of_not_blank hblank]
  | cons c v =>
    rw [List.cons_append, dropBlanks?, isBlank_of_isTypeLetter (hv c List.mem_cons_self)] at h
    cases h

theorem namespaceTail?_behind (hv : ∀ c ∈ v, isTypeLetter c = true) (hg : ∀ c ∈ g, isBlank c = true)
    (he : isEdge e = true) : namespaceTail? (v ++ (g ++ e :: z)) = none := by
  have hstart : isIdentStart e = false := by
    rcases isEdge_cases he with rfl | rfl | rfl | rfl | rfl <;> decide
  unfold namespaceTail?
  cases h : dropBlanks? (v ++ (g ++ e :: z)) with
  | none => rfl
  | some r => simp [dropBlanks?_behind hv hg he h, hstart]

theorem classTail?_behind (hv : ∀ c ∈ v, isTypeLetter c = true) (hg : ∀ c ∈ g, isBlank c = true)
    (he : isEdge e = true) : classTail? (v ++ (g ++ e :: z)) = none := by
  unfold classTail?
  cases h : dropBlanks? (v ++ (g ++ e :: z)) with
  | none => rfl
  | some r => simp [dropBlanks?_behind hv hg he h, takeName?, (isNamePart_edge he).2]

theorem trimStart_behind (hg : ∀ c ∈ g, isBlank c = true) (he : isEdge e = true) :
    trimStart (g ++ e :: z) = e :: z := by
  rw [trimStart_blanks hg, trimStart_cons_of_not_blank]
  rcases isEdge_cases he with rfl | rfl | rfl | rfl | rfl <;> decide

theorem dropHead?_name_behind (hv : ∀ c ∈ v, isTypeLetter c = true)
    (hg : ∀ c ∈ g, isBlank c = true) (he : isEdge e = true) :
    dropHead? ['('] (trimStart ((v ++ (g ++ e :: z)).dropWhile isNamePart)) = none := by
  induction v with
  | nil =>
    have hdrop : (g ++ e :: z).dropWhile isNamePart = g ++ e :: z := by
      cases g with
      | nil => exact List.dropWhile_cons_of_neg (by simp [isNamePart_edge he])
      | cons b g =>
        exact List.dropWhile_cons_of_neg (by simp [isNamePart_of_isBlank (hg b List.mem_cons_self)])
    rw [List.nil_append, hdrop, trimStart_behind hg he]
    rcases isEdge_cases he with rfl | rfl | rfl | rfl | rfl <;> rfl
  | cons c v ih =>
    have hc := hv c List.mem_cons_self
    by_cases hpart : isNamePart c = true
    · rw [List.cons_append, List.dropWhile_cons_of_pos hpart]
      exact ih fun d hd => hv d (List.mem_cons_of_mem _ hd)
    · have hne : '(' ≠ c := by
        rintro rfl
        exact absurd hc (by decide)
      rw [List.cons_append, List.dropWhile_cons_of_neg hpart,
        trimStart_cons_of_not_blank (isBlank_of_isTypeLetter hc)]
      simp [dropHead?, hne]

/-- Behind a type the parenthesis of a function is not found, unless the type is followed by a
reference to a name. -/
theorem functionTail?_behind (hv : ∀ c ∈ v, isTypeLetter c = true) (hg : ∀ c ∈ g, isBlank c = true)
    (he : isEdge e = true) (hreference : e = '&' → takeName? (trimStart z) = none) :
    functionTail? (v ++ (g ++ e :: z)) = none := by
  unfold functionTail?
  cases v with
  | nil =>
    have htrim : trimStart (e :: z) = e :: z := by
      simpa using trimStart_behind (g := []) (z := z) (by simp) he
    by_cases hamp : e = '&'
    · rw [List.nil_append, trimStart_behind hg he]
      subst hamp
      simp [dropHead?, hreference rfl]
    · simp [trimStart_behind hg he, htrim, dropHead?, Ne.symm hamp, takeName?,
        (isNamePart_edge he).2]
  | cons c v =>
    have hc := hv c List.mem_cons_self
    have hamp : '&' ≠ c := by
      rintro rfl
      exact absurd hc (by decide)
    have hname := dropHead?_name_behind (z := z) hv hg he
    rw [List.cons_append] at hname ⊢
    rw [trimStart_cons_of_not_blank (isBlank_of_isTypeLetter hc)]
    simp only [dropHead?, hamp, if_false, Option.getD_none,
      trimStart_cons_of_not_blank (isBlank_of_isTypeLetter hc), takeName?]
    split
    · simp [hname]
    · rfl

theorem dropWord?_behind {w : List Char} (hw : w.all Char.isAlpha = true)
    (hg : ∀ c ∈ g, isBlank c = true) (he : isEdge e = true) {r : List Char}
    (h : dropWord? w (v ++ (g ++ e :: z)) = some r) : ∃ y, y <:+ v ∧ r = y ++ (g ++ e :: z) := by
  obtain ⟨s, y, hsy, hs⟩ := exists_cons_behind hg he z
  rw [hsy, dropWord?_stop (hs _ hw).2, ← hsy] at h
  obtain ⟨r, hr, rfl⟩ := Option.map_eq_some_iff.mp h
  obtain ⟨x, rfl, -⟩ := exists_append_of_dropWord? hr
  exact ⟨r, List.suffix_append _ _, rfl⟩

theorem headed_behind {word : List Char → Option (List Char)} {tail : List Char → Option Found}
    (hword : ∀ r, word (v ++ (g ++ e :: z)) = some r → ∃ y, y <:+ v ∧ r = y ++ (g ++ e :: z))
    (htail : ∀ y, y <:+ v → tail (y ++ (g ++ e :: z)) = none) (previous : Option Char) :
    headed word tail previous (v ++ (g ++ e :: z)) = none := by
  unfold headed
  split
  · cases hr : word (v ++ (g ++ e :: z)) with
    | none => rfl
    | some r =>
      obtain ⟨y, hy, rfl⟩ := hword r hr
      exact htail y hy
  · rfl

/-- No head of a function begins in a type, unless it is followed by a reference to a name. -/
theorem silent_function {t : List Char} (ht : ∀ c ∈ t, isTypeLetter c = true)
    (hg : ∀ c ∈ g, isBlank c = true) (he : isEdge e = true) {previous : Option Char}
    (hreference : e = '&' → takeName? (trimStart z) = none) :
    Silent functionHeader? previous t (g ++ e :: z) := by
  intro u v htuv hne
  rw [functionHeader?_eq]
  refine headed_behind (fun r hr => dropWord?_behind (by decide) hg he hr) (fun y hy => ?_) _
  exact functionTail?_behind (fun c hc => ht c (htuv ▸ List.mem_append_right u (hy.mem hc)))
    hg he hreference

theorem silent_type {t : List Char} (ht : ∀ c ∈ t, isTypeLetter c = true)
    (hg : ∀ c ∈ g, isBlank c = true) (he : isEdge e = true) {previous : Option Char}
    (hreference : e = '&' → Silent functionHeader? previous t (g ++ e :: z))
    {pattern : Option Char → List Char → Option Found} (hpattern : IsHeader pattern) :
    Silent pattern previous t (g ++ e :: z) := by
  intro u v htuv hne
  have hletters : ∀ y, y <:+ v → ∀ c ∈ y, isTypeLetter c = true := fun y hy c hc =>
    ht c (by rw [htuv]; exact List.mem_append_right _ (hy.mem hc))
  cases hpattern with
  | ofNamespace =>
    rw [namespaceHeader?_eq]
    refine headed_behind (fun r hr => ?_) (fun y hy =>
      namespaceTail?_behind (hletters y hy) hg he) _
    obtain ⟨s, y, hsy, hs⟩ := exists_cons_behind hg he z
    rw [hsy, dropHead?_stop (hs _ (by decide)).1, ← hsy] at hr
    obtain ⟨x, hx, rfl⟩ := Option.map_eq_some_iff.mp hr
    exact ⟨x, ⟨_, (eq_append_of_dropHead? hx).symm⟩, rfl⟩
  | ofClass =>
    rw [classHeader?_eq]
    refine headed_behind (fun r hr => ?_) (fun y hy => classTail?_behind (hletters y hy) hg he) _
    obtain ⟨w, hw, hr⟩ := List.exists_of_findSome?_eq_some hr
    have hwords : ∀ w ∈ classWords, w.all Char.isAlpha = true := by decide
    exact dropWord?_behind (hwords w hw) hg he hr
  | ofFunction =>
    by_cases hamp : e = '&'
    · exact hreference hamp u v htuv hne
    · exact silent_function ht hg he (fun h => absurd h hamp) u v htuv hne

end

end SignatureInference.Placement
