import SignatureInference.Proofs.QualifiedNames
import SignatureInference.Proofs.Trace.PrintedStrings

/-! # Sources of doubles

The source of a double in a namespace of its own shows up in a trace as a printed string. The string
is read back with spaces for line feeds and tabs, and the name of the real type is found in it
whatever stands around the declaration, as long as no other namespace does.
-/
namespace SignatureInference.Trace.Doubles

open Text

/-! ## Blanks -/

@[simp] theorem isBlank_spaced (c : Char) : isBlank (spaced c) = isBlank c := by
  unfold spaced
  split
  · next h => rcases h with rfl | rfl <;> decide
  · rfl

theorem spaced_of_not_isBlank {c : Char} (h : isBlank c = false) : spaced c = c := by
  rw [spaced, if_neg]
  rintro (rfl | rfl) <;> revert h <;> decide

theorem map_spaced_of_not_isBlank {cs : List Char} (h : ∀ c ∈ cs, isBlank c = false) :
    cs.map spaced = cs := by
  have hself : cs.map spaced = cs.map id := List.map_congr_left fun c hc =>
    spaced_of_not_isBlank (h c hc)
  rw [hself, List.map_id]

theorem infix_of_map_spaced {word cs : List Char} (hword : ∀ c ∈ word, isBlank c = false)
    (h : word <:+: cs.map spaced) : word <:+: cs := by
  obtain ⟨a, b, hcut⟩ := h
  obtain ⟨x, y, rfl, hx, -⟩ := List.map_eq_append_iff.mp hcut.symm
  obtain ⟨z, w, rfl, -, hw⟩ := List.map_eq_append_iff.mp hx
  have hself : w.map spaced = w := by
    apply map_spaced_of_not_isBlank
    intro c hc
    rw [← isBlank_spaced]
    exact hword _ (hw ▸ List.mem_map_of_mem hc)
  exact ⟨z, y, by rw [← hw, hself]⟩

theorem infix_escape {word cs : List Char} (h : word <:+: cs) : escape word <:+: escape cs := by
  obtain ⟨x, y, rfl⟩ := h
  refine ⟨escape x, escape y, ?_⟩
  simp only [escape, List.flatMap_append]

theorem nonzero_of_isIdentPart {c : Char} (h : isIdentPart c = true) : c.toNat ≠ 0 := by
  intro hzero
  have hc : c = Char.ofNat 0 := by rw [← hzero, Char.ofNat_toNat]
  rw [hc] at h
  revert h
  decide

/-! ## Declarations -/

theorem isNamespaceRest_append {u : List Char} (hu : '\\' ∉ u) (v : List Char) :
    isNamespaceRest (u ++ v) = isNamespaceRest v := by
  induction u with
  | nil => rfl
  | cons c u ih =>
    rw [List.mem_cons, not_or] at hu
    rw [List.cons_append, isNamespaceRest, ih hu.2]
    · rintro rfl
      exact absurd rfl hu.1
    · intro d ds hc
      exact absurd hc.symm hu.1

theorem isNamespaceRest_joined {parts : List (List Char)}
    (hparts : ∀ part ∈ parts, FunctionName.isIdentifier part = true) :
    isNamespaceRest (joined parts) = true := by
  induction parts with
  | nil => rfl
  | cons part parts ih =>
    have hrest : ∀ p ∈ parts, FunctionName.isIdentifier p = true :=
      fun p hp => hparts p (List.mem_cons_of_mem _ hp)
    have hslash := backslash_not_mem (hparts part List.mem_cons_self)
    by_cases hnil : parts = []
    · subst hnil
      have halone := isNamespaceRest_append hslash []
      rw [List.append_nil] at halone
      rw [joined_singleton, halone]
      rfl
    · obtain ⟨c, cs, htext, hstart, hc⟩ := exists_cons_joined hnil hrest
      have hjoined := ih hrest
      have hcs := isNamespaceRest_append (u := [c]) (by simpa using hc.symm) cs
      rw [List.singleton_append, ← htext, hjoined] at hcs
      rw [joined_cons part hnil, isNamespaceRest_append hslash, htext, isNamespaceRest,
        hstart, ← hcs]
      rfl

def doubleSpace : List Char := "Double\\".toList

def extendsWord : List Char := "extends".toList

def isSpacePart (c : Char) : Bool := isIdentPart c || c == '\\'

def doubleClass? (space cs : List Char) : Option (List Char × List Char) := do
  let cs ← dropHead? ['\x7b'] (trimStart cs)
  let cs ← dropHead? classWord (trimStart cs)
  let cs ← dropBlanks? cs
  if !cs.head?.any isIdentStart then none
  let cs ← dropBlanks? (cs.dropWhile isWordChar)
  let rest ← dropRelation? cs
  return (dropEndWhile (· == '\\') space, rest)

def doubleTail? (cs : List Char) : Option (List Char × List Char) :=
  let space := cs.takeWhile isSpacePart
  if !(space.head?.any isIdentStart && isNamespaceRest space) then none
  else doubleClass? space (cs.dropWhile isSpacePart)

theorem doubleDeclaration?_eq (cs : List Char) :
    doubleDeclaration? cs = (dropHead? namespaceWord cs).bind fun cs =>
      (dropBlanks? cs).bind fun cs => (dropHead? doubleSpace cs).bind doubleTail? :=
  rfl

theorem dropBlanks?_space {cs : List Char} (h : cs.head?.any isBlank = false) :
    dropBlanks? (' ' :: cs) = some cs := by
  rw [dropBlanks?, if_pos (by decide), trimStart, List.dropWhile_cons_of_pos (by decide),
    dropWhile_of_head h]

theorem isBlank_head_of_isIdentStart {cs : List Char} (h : cs.head?.any isIdentStart = true) :
    cs.head?.any isBlank = false := by
  cases cs with
  | nil => rfl
  | cons c cs =>
    apply isBlank_of_isIdentPart
    rw [List.head?_cons, Option.any_some, isIdentStart, Bool.or_eq_true] at h
    rw [isIdentPart, Bool.or_eq_true]
    exact h.imp_left fun halpha => Bool.or_eq_true_iff.mpr (.inl halpha)

def OpensDouble (cs : List Char) : Prop :=
  ∃ blanks, (∀ c ∈ blanks, isBlank c = true) ∧ namespaceWord ++ (blanks ++ doubleSpace) <:+: cs

theorem not_opensDouble {cs : List Char} (h : ¬namespaceWord <:+: cs) : ¬OpensDouble cs := by
  rintro ⟨blanks, -, hopens⟩
  exact h ((List.prefix_append _ _).isInfix.trans hopens)

/-- Only a text that opens the namespace of a double declares one. -/
theorem findAll_eq_nil {cs : List Char} (h : ¬OpensDouble cs) :
    findAll doubleDeclaration? cs = [] := by
  rw [List.eq_nil_iff_forall_not_mem]
  intro real hreal
  obtain ⟨y, z, rest, hcs, hread⟩ := exists_of_mem_findAll hreal
  rw [doubleDeclaration?_eq] at hread
  obtain ⟨z₁, hword, hread⟩ := Option.bind_eq_some_iff.mp hread
  obtain ⟨z₂, hblanks, hread⟩ := Option.bind_eq_some_iff.mp hread
  obtain ⟨z₃, hspace, -⟩ := Option.bind_eq_some_iff.mp hread
  obtain ⟨blanks, hcut, hblank⟩ := exists_append_trimStart z₁
  rw [← exists_append_of_dropBlanks? hblanks, eq_append_of_dropHead? hspace] at hcut
  apply h
  refine ⟨blanks, hblank, y, z₃, ?_⟩
  rw [hcs, eq_append_of_dropHead? hword, hcut]
  simp only [List.append_assoc]

/-- The source of a double that stands alone in its namespace. -/
structure Declaration where
  /-- The type that the double stands for. -/
  real : QualifiedName
  /-- The name of the double itself. -/
  double : List Char
  /-- The blanks between the head of the namespace and the class. -/
  gap : List Char
  /-- The text in front of the namespace. -/
  lead : List Char
  /-- The text from the types above the double on. -/
  tail : List Char
  double_isIdentifier : FunctionName.isIdentifier double = true
  gap_isBlank : ∀ c ∈ gap, isBlank c = true
  lead_plain : ¬namespaceWord <:+: lead
  tail_plain : ¬namespaceWord <:+: tail
  lead_nonzero : ∀ c ∈ lead, c.toNat ≠ 0
  tail_nonzero : ∀ c ∈ tail, c.toNat ≠ 0

namespace Declaration

def classHead (d : Declaration) : List Char := classWord ++ ' ' :: (d.double ++ ' ' :: extendsWord)

def head (d : Declaration) (gap : List Char) : List Char :=
  namespaceWord ++ ' ' ::
    (doubleSpace ++ (joined d.real.parts ++ ' ' :: '\x7b' :: (gap ++ d.classHead)))

def text (d : Declaration) : List Char := d.lead ++ (d.head d.gap ++ d.tail)

def printed (d : Declaration) : String := String.ofList (escape d.text)

variable (d : Declaration)

theorem double_head : d.double.head?.any isIdentStart = true := by
  have hidentifier := d.double_isIdentifier
  rw [FunctionName.isIdentifier, Bool.and_eq_true] at hidentifier
  exact hidentifier.1

theorem doubleClass?_head (space : List Char) {gap : List Char} (hgap : ∀ c ∈ gap, isBlank c = true)
    (rest : List Char) :
    doubleClass? space (' ' :: '\x7b' :: (gap ++ (d.classHead ++ rest))) =
      some (dropEndWhile (· == '\\') space, rest) := by
  let relation := extendsWord ++ rest
  let named := d.double ++ ' ' :: relation
  have hclass : d.classHead ++ rest = classWord ++ ' ' :: named := by
    simp only [classHead, named, relation, List.append_assoc, List.cons_append]
  have hstart : named.head?.any isIdentStart = true := by
    have hhead := d.double_head
    cases hdouble : d.double with
    | nil =>
      rw [hdouble] at hhead
      cases hhead
    | cons c cs =>
      rw [hdouble] at hhead
      simp only [named, hdouble]
      exact hhead
  have hbrace : dropHead? ['\x7b'] (trimStart (' ' :: '\x7b' :: (gap ++ (d.classHead ++ rest)))) =
      some (gap ++ (d.classHead ++ rest)) := by
    rw [trimStart, List.dropWhile_cons_of_pos (by decide), List.dropWhile_cons_of_neg (by decide)]
    exact dropHead?_append ['\x7b'] _
  have hword : dropHead? classWord (trimStart (gap ++ (d.classHead ++ rest))) =
      some (' ' :: named) := by
    have hfront : trimStart (classWord ++ ' ' :: named) = classWord ++ ' ' :: named := by
      apply trimStart_cons_of_not_blank
      decide
    rw [trimStart_blanks hgap, hclass, hfront, dropHead?_append]
  have hnamed : dropBlanks? (' ' :: named) = some named :=
    dropBlanks?_space (isBlank_head_of_isIdentStart hstart)
  have hbehind : dropBlanks? (named.dropWhile isWordChar) = some relation := by
    have hdouble : ∀ c ∈ d.double, isWordChar c = true := fun c hc =>
      isWordChar_of_isIdentPart (isIdentPart_of_mem d.double_isIdentifier c hc)
    rw [List.dropWhile_append_of_pos hdouble, List.dropWhile_cons_of_neg (by decide)]
    apply dropBlanks?_space
    rfl
  have hrelation : dropRelation? relation = some rest := by
    have hextends : dropHead? extendsWord (extendsWord ++ rest) = some rest := dropHead?_append _ _
    unfold dropRelation?
    change (dropHead? extendsWord (extendsWord ++ rest)).or _ = some rest
    rw [hextends]
    rfl
  rw [doubleClass?, hbrace]
  simp only [Option.bind_eq_bind, Option.bind_some, hword, hnamed, hstart, hbehind, hrelation]
  rfl

theorem doubleDeclaration?_head {gap : List Char} (hgap : ∀ c ∈ gap, isBlank c = true)
    (rest : List Char) :
    doubleDeclaration? (d.head gap ++ rest) = some (joined d.real.parts, rest) := by
  have hne := d.real.parts_ne_nil
  have hparts := d.real.isIdentifier
  have hpart : ∀ c ∈ joined d.real.parts, isSpacePart c = true := isPart_of_mem_joined hne hparts
  let behind := ' ' :: '\x7b' :: (gap ++ (d.classHead ++ rest))
  have htext : d.head gap ++ rest =
      namespaceWord ++ ' ' :: (doubleSpace ++ (joined d.real.parts ++ behind)) := by
    simp only [head, behind, List.append_assoc, List.cons_append]
  have htail : doubleTail? (joined d.real.parts ++ behind) = some (joined d.real.parts, rest) := by
    have hspace : (joined d.real.parts ++ behind).takeWhile isSpacePart = joined d.real.parts := by
      rw [List.takeWhile_append_of_pos hpart, List.takeWhile_cons_of_neg (by decide),
        List.append_nil]
    have hbehind : (joined d.real.parts ++ behind).dropWhile isSpacePart = behind := by
      rw [List.dropWhile_append_of_pos hpart, List.dropWhile_cons_of_neg (by decide)]
    have hlast :=
      dropEndWhile_of_last (ClassName.ends_of_isQualified (isQualified_joined hne hparts)).2
    have hstart : (joined d.real.parts).head?.any isIdentStart = true := by
      obtain ⟨c, cs, htext, hstart, -⟩ := exists_cons_joined hne hparts
      rw [htext]
      exact hstart
    rw [doubleTail?, hspace, hbehind, hstart, isNamespaceRest_joined hparts,
      d.doubleClass?_head _ hgap, hlast]
    rfl
  have hblank : dropBlanks? (' ' :: (doubleSpace ++ (joined d.real.parts ++ behind))) =
      some (doubleSpace ++ (joined d.real.parts ++ behind)) := dropBlanks?_space rfl
  rw [doubleDeclaration?_eq, htext, dropHead?_append, Option.bind_some, hblank, Option.bind_some,
    dropHead?_append, Option.bind_some, htail]

theorem doubleDeclaration?_in_lead {x y : List Char} (hcut : d.lead.map spaced = x ++ y)
    (hy : y ≠ []) (v : List Char) :
    doubleDeclaration? (y ++ (d.head (d.gap.map spaced) ++ v)) = none := by
  have hplain : ¬namespaceWord <:+: d.lead.map spaced := fun h =>
    d.lead_plain (infix_of_map_spaced (by decide) h)
  have hbegins : ¬namespaceWord <+: y ++ (d.head (d.gap.map spaced) ++ v) := by
    rw [head, List.append_assoc]
    exact not_begins_in_front (by decide) hplain hcut hy
  rw [doubleDeclaration?_eq, dropHead?_eq_none_iff.mpr hbegins, Option.bind_none]

theorem map_spaced_text :
    d.text.map spaced = d.lead.map spaced ++ (d.head (d.gap.map spaced) ++ d.tail.map spaced) := by
  have hwords : namespaceWord.map spaced = namespaceWord ∧ doubleSpace.map spaced = doubleSpace ∧
      classWord.map spaced = classWord ∧ extendsWord.map spaced = extendsWord ∧ spaced ' ' = ' ' ∧
      spaced '\x7b' = '\x7b' := by decide
  obtain ⟨hnamespace, hspace, hclass, hextends, hblank, hbrace⟩ := hwords
  have hdouble : d.double.map spaced = d.double := map_spaced_of_not_isBlank fun c hc =>
    isBlank_of_isIdentPart (isIdentPart_of_mem d.double_isIdentifier c hc)
  have hreal : (joined d.real.parts).map spaced = joined d.real.parts := map_spaced_of_not_isBlank
    (ClassName.not_blank_of_isQualified
      (isQualified_joined d.real.parts_ne_nil d.real.isIdentifier))
  simp only [text, head, classHead, List.map_append, List.map_cons, hnamespace, hspace,
    hclass, hextends, hblank, hbrace, hdouble, hreal]

/-- A source declares its double and no other one. -/
theorem findAll_text : findAll doubleDeclaration? (d.text.map spaced) = [joined d.real.parts] := by
  have hgap : ∀ c ∈ d.gap.map spaced, isBlank c = true := by
    intro c hc
    obtain ⟨b, hb, rfl⟩ := List.mem_map.mp hc
    rw [isBlank_spaced]
    exact d.gap_isBlank b hb
  have htail : findAll doubleDeclaration? (d.tail.map spaced) = [] := by
    apply findAll_eq_nil
    apply not_opensDouble
    intro hword
    exact d.tail_plain (infix_of_map_spaced (by decide) hword)
  have hhead : d.head (d.gap.map spaced) ≠ [] := by simp [head]
  rw [map_spaced_text, findAll_append_of_none fun x y hcut hy =>
    d.doubleDeclaration?_in_lead hcut hy _,
    findAll_append_of_some hhead (d.doubleDeclaration?_head hgap _), htail]

theorem text_nonzero : ∀ c ∈ d.text, c.toNat ≠ 0 := by
  have hreal : ∀ c ∈ joined d.real.parts, c.toNat ≠ 0 := by
    intro c hc
    have hpart := isPart_of_mem_joined d.real.parts_ne_nil d.real.isIdentifier c hc
    rcases Bool.or_eq_true_iff.mp hpart with hpart | hslash
    · exact nonzero_of_isIdentPart hpart
    · rw [beq_iff_eq.mp hslash]
      decide
  have hdouble : ∀ c ∈ d.double, c.toNat ≠ 0 := fun c hc =>
    nonzero_of_isIdentPart (isIdentPart_of_mem d.double_isIdentifier c hc)
  have hgap : ∀ c ∈ d.gap, c.toNat ≠ 0 := by
    intro c hc hzero
    have hcode := toNat_mem_blankCodes (d.gap_isBlank c hc)
    rw [hzero] at hcode
    revert hcode
    decide
  simp only [text, head, classHead, List.forall_mem_append, List.forall_mem_cons]
  exact ⟨d.lead_nonzero,
    ⟨by decide, by decide, by decide, hreal, by decide, by decide, hgap, by decide, by decide,
      hdouble, by decide, by decide⟩,
    d.tail_nonzero⟩

theorem unescape_printed : unescape d.printed.toList = d.text.map spaced := by
  rw [printed, String.toList_ofList, unescape_escape d.text_nonzero]

end Declaration

end SignatureInference.Trace.Doubles
