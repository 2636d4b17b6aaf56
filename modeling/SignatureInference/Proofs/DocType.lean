import SignatureInference.DocType
import SignatureInference.Proofs.SortedMap
import SignatureInference.Proofs.Text.Lowercase
import SignatureInference.Proofs.TypeValue

/-! # Reserved words in doc types

A doc type that is a reserved word has a meaning of its own and is not taken for the name of a
class. With a backslash in front the same word is: it comes through the readers of all such words
and becomes a class of the global namespace. The only other way to such a class is an alias for
something that is no class name.
-/
namespace SignatureInference

namespace DocType

open Text

/-- The words of the language, and of its documentation, that cannot be names of classes. -/
def reservedWords : List String :=
  ["int", "float", "string", "bool", "self", "static", "mixed"] ++ pseudoTypes

def isReserved (word : String) : Bool := reservedWords.contains (lowerString word)

/-- The words that have a meaning of their own in a doc comment. -/
def ownWords : List String :=
  ["mixed"] ++ ["$this", "self", "static"] ++ ["array", "list", "non-empty-array",
    "non-empty-list"] ++
    ["callable", "closure", "\\closure"] ++
    ["int", "integer", "float", "double", "string", "bool", "boolean"] ++ pseudoTypes

theorem ownWords_of_reservedWords : ∀ word ∈ reservedWords, word ∈ ownWords := by decide

end DocType

namespace TypeValue

/-- An object of a class of the global namespace that is named by a reserved word. -/
def isReservedClass (t : TypeValue) : Bool :=
  match t.shape with
  | .object space name => space == "" && DocType.isReserved name
  | _ => false

@[simp] theorem isReservedClass_orNull (t : TypeValue) :
    t.orNull.isReservedClass = t.isReservedClass := rfl

end TypeValue

namespace DocType

open Text

theorem not_isReserved_of_backslash {word : String} (h : '\\' ∈ word.toList) :
    isReserved word = false := by
  have hwords : ∀ w ∈ reservedWords, '\\' ∉ w.toList := by decide
  rw [isReserved, ← Bool.not_eq_true, List.contains_iff_mem]
  intro hmem
  apply hwords _ hmem
  rw [lowerString, onString, String.toList_ofList]
  exact mem_lowerAfter h (by decide) (by decide) []

theorem isReservedClass_iff_hint (t : TypeValue) :
    t.isReservedClass = true ↔ ∃ word, t.hintName? = some ("\\" ++ word) ∧
      isReserved word = true := by
  have hplain : ∀ {keyword word : String}, keyword.toList.head? ≠ some '\\' →
      keyword ≠ "\\" ++ word := by
    rintro keyword word hhead rfl
    simp at hhead
  obtain ⟨shape, nullable⟩ := t
  cases shape with
  | unresolved reason note => simp [TypeValue.isReservedClass, TypeValue.hintName?]
  | scalar kind =>
    have hhead : kind.keyword.toList.head? ≠ some '\\' := by cases kind <;> decide
    simp [TypeValue.isReservedClass, TypeValue.hintName?, hplain hhead]
  | object space name =>
    simp only [TypeValue.isReservedClass, TypeValue.hintName?, Bool.and_eq_true, beq_iff_eq,
      Option.some.injEq]
    constructor
    · rintro ⟨rfl, hname⟩
      refine ⟨name, ?_, hname⟩
      rw [if_neg, TypeValue.name]
      · rfl
      · simp only [TypeValue.isBuiltin, Bool.and_eq_true, Bool.or_eq_true, beq_iff_eq]
        rintro ⟨-, rfl | rfl⟩
        · exact absurd hname (by decide)
        · exact absurd hname (by decide)
    · rintro ⟨word, hhint, hword⟩
      split at hhint
      · next hbuiltin =>
        simp only [TypeValue.isBuiltin, Bool.and_eq_true, Bool.or_eq_true, beq_iff_eq] at hbuiltin
        rcases hbuiltin.2 with rfl | rfl
        · exact absurd hhint (hplain (by decide))
        · exact absurd hhint (hplain (by decide))
      · have hname : (TypeValue.mk (.object space name) nullable).name = word := by
          simpa using hhint
        simp only [TypeValue.name] at hname
        split at hname
        · next hspace =>
          subst hname
          exact ⟨by simpa using hspace, hword⟩
        · rw [not_isReserved_of_backslash (by simp [← hname])] at hword
          cases hword

/-! ## The type behind blanks and question marks -/

/-- A doc type without the question marks in front of it and the blanks around it. -/
def bareOf (raw : List Char) : List Char := trimEnd (raw.dropWhile fun c => isBlank c || c == '?')

theorem bareOf_trim (raw : List Char) : bareOf (trim raw) = bareOf raw := by
  obtain ⟨u, v, hcut, hu, hv⟩ := exists_blanks_trim raw
  have hu' : ∀ c ∈ u, (isBlank c || c == '?') = true := fun c hc => by simp [hu c hc]
  have hv' : ∀ c ∈ v, (isBlank c || c == '?') = true := fun c hc => by simp [hv c hc]
  conv_rhs => rw [hcut, bareOf, List.dropWhile_append_of_pos hu', List.dropWhile_append]
  split
  · next hempty => rw [bareOf, List.isEmpty_iff.mp hempty, List.dropWhile_eq_nil_iff.mpr hv']
  · rw [trimEnd_blanks hv, bareOf]

theorem bareOf_question (inner : List Char) : bareOf ('?' :: inner) = bareOf inner := by
  rw [bareOf, List.dropWhile_cons_of_pos (by decide), bareOf]

theorem bareOf_of_ne {c : Char} {cs raw : List Char} (htrim : trim raw = c :: cs) (hc : c ≠ '?') :
    bareOf raw = c :: cs := by
  obtain ⟨hhead, hlast⟩ := ends_trim raw
  rw [htrim] at hhead hlast
  have hblank : isBlank c = false := by simpa using hhead
  rw [← bareOf_trim, htrim, bareOf, List.dropWhile_cons_of_neg (by simp [hblank, hc]), trimEnd,
    dropEndWhile_of_last hlast]

section

variable {owner scope : ClassInfo} {index : Index}

/-- The meaning of a doc type is a reserved class if that of the type behind the question marks
is. -/
theorem resolveWithin_isReservedClass {steps : Nat} {raw : List Char} (hsteps : raw.length < steps)
    (hempty : (resolveBare [] owner scope index).isReservedClass = false) :
    (∃ t, resolveWithin owner scope index steps raw = some t ∧ t.isReservedClass = true) ↔
      (resolveBare (bareOf raw) owner scope index).isReservedClass = true := by
  induction steps generalizing raw with
  | zero => omega
  | succ steps ih =>
    rw [resolveWithin]
    split
    · next hnil =>
      rw [← bareOf_trim, hnil, bareOf, List.dropWhile_nil]
      simp [trimEnd, dropEndWhile, hempty]
    · next inner htrim =>
      have hlength : inner.length < steps := by
        obtain ⟨u, v, hcut, -, -⟩ := exists_blanks_trim raw
        have := congrArg List.length hcut
        rw [htrim] at this
        simp only [List.length_append, List.length_cons] at this
        omega
      rw [← bareOf_trim, htrim, bareOf_question, ← ih hlength]
      constructor
      · rintro ⟨t, ht, hreserved⟩
        obtain ⟨t', ht', rfl⟩ := Option.map_eq_some_iff.mp ht
        exact ⟨t', ht', hreserved⟩
      · rintro ⟨t, ht, hreserved⟩
        exact ⟨t.orNull, by rw [ht, Option.map_some], hreserved⟩
    · next hnil hquestion =>
      obtain ⟨c, cs, htrim⟩ := List.exists_cons_of_ne_nil hnil
      have hc : c ≠ '?' := by
        rintro rfl
        exact hquestion cs htrim
      rw [bareOf_of_ne htrim hc, htrim]
      simp

end

/-! ## Names of classes -/

theorem isAlphanumeric_of_isBlank {c : Char} (h : isBlank c = true) : isAlphanumeric c = false := by
  have hall : ∀ n ∈ blankCodes, isAlphanumeric (Char.ofNat n) = false := by decide +kernel
  simpa using hall _ (toNat_mem_blankCodes h)

theorem char_of_isClassName {text : List Char} (h : isClassName text = true) {c : Char}
    (hc : c ∈ text) :
    c = '\\' ∨ c = '_' ∨ isAlphanumeric c = true := by
  rw [← List.takeWhile_append_dropWhile (p := (· == '\\')) (l := text)] at hc
  rcases List.mem_append.mp hc with hc | hc
  · exact .inl (by simpa using List.mem_takeWhile_imp hc)
  · rcases mem_splitWhere (p := (· == '\\')) hc with hsep | ⟨part, hpart, hmem⟩
    · exact .inl (by simpa using hsep)
    · have hsegment := List.all_eq_true.mp h part hpart
      rw [isSegment, Bool.and_eq_true, List.all_eq_true] at hsegment
      have := hsegment.2 c hmem
      rw [Bool.or_eq_true, beq_iff_eq] at this
      exact .inr this.symm

theorem not_mem_of_isClassName {text : List Char} (h : isClassName text = true) {c : Char}
    (hc : c ≠ '\\' ∧ c ≠ '_' ∧ isAlphanumeric c = false) : c ∉ text := by
  intro hmem
  rcases char_of_isClassName h hmem with rfl | rfl | halpha
  · exact hc.1 rfl
  · exact hc.2.1 rfl
  · rw [hc.2.2] at halpha
    cases halpha

theorem not_blank_of_isClassName {text : List Char} (h : isClassName text = true) :
    ∀ c ∈ text, isBlank c = false := by
  intro c hc
  by_contra hblank
  have hblank : isBlank c = true := by simpa using hblank
  refine not_mem_of_isClassName h ⟨?_, ?_, isAlphanumeric_of_isBlank hblank⟩ hc
  · rintro rfl
    exact absurd hblank (by decide)
  · rintro rfl
    exact absurd hblank (by decide)

theorem takeWhile_lower_of_isClassName {text : List Char} (h : isClassName text = true) :
    (lower text).takeWhile (· != '<') = lower text := by
  rw [List.takeWhile_eq_self_iff]
  intro c hc
  rw [bne_iff_ne]
  rintro rfl
  exact not_mem_of_isClassName h (by decide) (mem_of_mem_lowerAfter hc (by decide) (by decide))

section

variable {owner scope : ClassInfo} {index : Index} {text : List Char}

/-- A class name is read as a class unless it is a word with a meaning of its own. -/
theorem resolveBare_of_isClassName (h : isClassName text = true)
    (hown : String.ofList (lower text) ∉ ownWords) :
    resolveBare text owner scope index = .ofClassText (resolveClass text scope index).text := by
  have hangle := takeWhile_lower_of_isClassName h
  have hbar : text.contains '|' = false := by
    rw [← Bool.not_eq_true, List.contains_iff_mem]
    exact not_mem_of_isClassName h (by decide)
  have hbrackets : endsWith "[]".toList text = false := by
    rw [← Bool.not_eq_true, endsWith_iff]
    intro hsuffix
    exact not_mem_of_isClassName h (c := '[') (by decide) (hsuffix.subset (by decide))
  have hword : ∀ words : List String, (∀ w ∈ words, w ∈ ownWords) →
      words.contains (String.ofList (lower text)) = false := by
    intro words hwords
    rw [← Bool.not_eq_true, List.contains_iff_mem]
    exact fun hmem => hown (hwords _ hmem)
  have hmixed : (lower text == "mixed".toList) = false := by
    rw [beq_eq_false_iff_ne]
    intro he
    exact hown (by rw [he]; decide)
  have hscalar : Scalar.ofWord? (String.ofList (lower text)) = none := by
    have hne : ∀ w ∈ ownWords, (String.ofList (lower text) == w) = false := by
      intro w hw
      rw [beq_eq_false_iff_ne]
      rintro rfl
      exact hown hw
    simp [Scalar.ofWord?, hne "int" (by decide), hne "integer" (by decide), hne "float" (by decide),
      hne "double" (by decide), hne "string" (by decide), hne "bool" (by decide),
      hne "boolean" (by decide)]
  simp only [resolveBare, hangle, hbar, hbrackets, hmixed, hscalar, h,
    hword ["$this", "self", "static"] (by decide),
    hword ["array", "list", "non-empty-array", "non-empty-list"] (by decide),
    hword ["callable", "closure", "\\closure"] (by decide), hword pseudoTypes (by decide)]
  rfl

/-- Only a class name can be read as a reserved class, and no word with a meaning of its own. -/
theorem isClassName_of_isReservedClass
    (howner : (TypeValue.ofClass owner.name).isReservedClass = false)
    (h : (resolveBare text owner scope index).isReservedClass = true) :
    isClassName text = true ∧ String.ofList (lower text) ∉ ownWords := by
  unfold resolveBare at h
  simp only at h
  split at h
  · exact absurd h Bool.false_ne_true
  next hmixed =>
  split at h
  · exact absurd h (by decide)
  split at h
  · rw [ClassInfo.type, howner] at h
    cases h
  next hself =>
  split at h
  · exact absurd h (by decide)
  next harray =>
  split at h
  · exact absurd h (by decide)
  next hcallable =>
  split at h
  · exact absurd h Bool.false_ne_true
  next hscalar =>
  split at h
  · exact absurd h Bool.false_ne_true
  next hpseudo =>
  rw [Bool.or_eq_true, not_or, Bool.not_eq_true', Bool.not_eq_false] at hpseudo
  refine ⟨hpseudo.2, fun hown => ?_⟩
  rw [takeWhile_lower_of_isClassName hpseudo.2, List.contains_iff_mem] at hself harray hcallable
  rw [List.contains_iff_mem] at hpseudo
  have hscalars : ∀ w ∈ ["int", "integer", "float", "double", "string", "bool", "boolean"],
      Scalar.ofWord? w ≠ none := by decide
  simp only [ownWords, List.mem_append, List.mem_singleton] at hown
  rcases hown with ((((hown | hown) | hown) | hown) | hown) | hown
  · have hlower : lower text = "mixed".toList := by rw [← hown, String.toList_ofList]
    exact hmixed (by rw [hlower]; rfl)
  · exact hself hown
  · exact harray hown
  · exact hcallable hown
  · exact hscalars _ hown hscalar
  · exact hpseudo.1 hown

/-! ## Which classes are reserved -/

theorem head?_ofText (name : String) : (ClassName.ofText name).text.toList.head? ≠ some '\\' := by
  intro hhead
  have hnot := head?_dropWhile (· == '\\') (trim name.toList)
  rw [ClassName.ofText, onString, String.toList_ofList, ClassName.dropLeadingBackslashes] at hhead
  rw [hhead] at hnot
  exact absurd hnot (by decide)

/-- A name stands for a reserved class if it is a reserved word, backslashes in front and blanks
apart. -/
theorem isReservedClass_ofClassText (name : String) :
    (TypeValue.ofClassText name).isReservedClass = isReserved (ClassName.ofText name).text := by
  have hhead := head?_ofText name
  rw [TypeValue.ofClassText]
  generalize ClassName.ofText name = c at hhead ⊢
  rw [TypeValue.isReservedClass, TypeValue.ofClass, TypeValue.object]
  rcases c.parts_cases with ⟨-, hspace, hshort⟩ | ⟨u, v, htext, -, hspace, hshort⟩
  · simp [hspace, hshort]
  · have hne : String.ofList u ≠ "" := by
      intro hempty
      have hu : u = [] := by simpa using congrArg String.toList hempty
      rw [htext, hu] at hhead
      exact hhead rfl
    rw [not_isReserved_of_backslash (by simp [htext])]
    simp [hspace, hne]

theorem ofText_of_not_blank {cs : List Char} (h : ∀ c ∈ cs, isBlank c = false) :
    ClassName.ofText (String.ofList cs) =
      ⟨String.ofList (ClassName.dropLeadingBackslashes cs)⟩ := by
  rw [ClassName.ofText, onString, String.toList_ofList, trim_of_no_blank h]

theorem ofText_ofText_of_not_blank {cs : List Char} (h : ∀ c ∈ cs, isBlank c = false) :
    ClassName.ofText (ClassName.ofText (String.ofList cs)).text =
      ⟨String.ofList (ClassName.dropLeadingBackslashes cs)⟩ := by
  have hdrop : ∀ c ∈ ClassName.dropLeadingBackslashes cs, isBlank c = false :=
    fun c hc => h c ((List.dropWhile_suffix _).subset hc)
  rw [ofText_of_not_blank h, ofText_of_not_blank hdrop, ClassName.dropLeadingBackslashes,
    ClassName.dropLeadingBackslashes, dropWhile_of_head (head?_dropWhile _ cs)]

/-- A name begins with an alias whose expansion is no qualified name and is read as a reserved
class. -/
def ThroughAlias (imports : Php.Imports) (name : List Char) : Prop :=
  name.head? ≠ some '\\' ∧ String.ofList (lower name) ∉ ownWords ∧
    ∃ target, imports.expand? name = some target ∧ ClassName.isQualified target.toList = false ∧
      (TypeValue.ofClassText (ClassName.ofText target).text).isReservedClass = true

def Slashed (name : List Char) : Prop :=
  name.head? = some '\\' ∧ isReserved (String.ofList (ClassName.dropLeadingBackslashes name)) = true

theorem Slashed.not_own {name : List Char} (h : Slashed name) :
    String.ofList (lower name) ∉ ownWords := by
  obtain ⟨hhead, hreserved⟩ := h
  intro hmem
  have hslash : (lower name).head? = some '\\' := by
    obtain ⟨rest, rfl⟩ := List.head?_eq_some_iff.mp hhead
    rfl
  -- the only one of these words that begins with a backslash is not reserved
  have hone : ∀ w ∈ ownWords, w.toList.head? = some '\\' → w = "\\closure" := by decide
  have hword : lower name = "\\closure".toList := by
    rw [← hone _ hmem (by rwa [String.toList_ofList]), String.toList_ofList]
  have hplain : ∀ d ∈ "\\closure".toList, isAscii d = true ∧ d ≠ 'k' := by decide
  have hascii : ∀ c ∈ name, isAscii c = true :=
    @isAscii_of_lowerAfter name [] (by rwa [← hword] at hplain)
  have hletters := map_toLower_of_lower_eq hword hplain
  cases name with
  | nil => cases hhead
  | cons c rest =>
    obtain rfl : c = '\\' := by simpa using hhead
    have hrest : rest.map Char.toLower = "closure".toList := (List.cons.inj hletters).2
    have hfront : rest.head?.any (· == '\\') = false := by
      cases rest with
      | nil => rfl
      | cons d rest =>
        rw [List.head?_cons, Option.any_some, beq_eq_false_iff_ne]
        rintro rfl
        exact absurd (List.cons.inj hrest).1 (by decide)
    rw [ClassName.dropLeadingBackslashes, List.dropWhile_cons_of_pos (by decide),
      dropWhile_of_head hfront, isReserved, lowerString, onString, String.toList_ofList,
      lower_of_isAscii fun d hd => hascii d (List.mem_cons_of_mem _ hd), hrest] at hreserved
    exact absurd hreserved (by decide)

theorem exists_of_expand? {imports : Php.Imports} {name : List Char} {target : String}
    (h : imports.expand? name = some target) :
    ∃ e ∈ imports.entries, target = e.2 ∨ '\\' ∈ target.toList := by
  obtain ⟨e, he, htarget⟩ := Option.bind_eq_some_iff.mp h
  cases htarget
  refine ⟨e, List.mem_of_find?_eq_some he, ?_⟩
  have hrest : name.drop (name.takeWhile (· != '\\')).length = name.dropWhile (· != '\\') := by
    calc name.drop (name.takeWhile (· != '\\')).length
        = (name.takeWhile (· != '\\') ++ name.dropWhile (· != '\\')).drop
            (name.takeWhile (· != '\\')).length := by rw [List.takeWhile_append_dropWhile]
      _ = name.dropWhile (· != '\\') := List.drop_left
  have hhead := head?_dropWhile (· != '\\') name
  rw [hrest]
  cases hdrop : name.dropWhile (· != '\\') with
  | nil => exact .inl (by simp)
  | cons c rest =>
    rw [hdrop] at hhead
    obtain rfl : c = '\\' := by simpa using hhead
    exact .inr (by simp)

/-- A name that begins with an alias means a reserved class if its expansion is no qualified
name. -/
theorem isReservedClass_expand? {target : String} (hown : String.ofList (lower text) ∉ ownWords)
    (hhead : text.head? ≠ some '\\')
    (himports : ∀ e ∈ scope.imports.entries, isReserved e.2 = false)
    (hexpand : Php.Imports.expand? scope.imports text = some target) :
    (TypeValue.ofClassText (ClassName.ofText target).text).isReservedClass = true ↔
      ThroughAlias scope.imports text := by
  constructor
  · intro hreserved
    refine ⟨hhead, hown, target, hexpand, ?_, hreserved⟩
    by_contra hqualified
    -- a qualified name is read as it is, and it is no reserved word
    have hwell : (ClassName.mk target).WellFormed := by rwa [Bool.not_eq_false] at hqualified
    have hsame : ClassName.ofText target = ⟨target⟩ := ClassName.ofText_text hwell
    rw [isReservedClass_ofClassText, hsame, hsame] at hreserved
    obtain ⟨e, he, rfl | hslash⟩ := exists_of_expand? hexpand
    · rw [himports e he] at hreserved
      cases hreserved
    · rw [not_isReserved_of_backslash hslash] at hreserved
      cases hreserved
  · rintro ⟨-, -, target', htarget', -, hreserved⟩
    rw [hexpand] at htarget'
    cases htarget'
    exact hreserved

/-- A name without an alias means a declared class or one of the same name, which are not
reserved. -/
theorem isReservedClass_findClass? (hname : isClassName text = true)
    (hown : String.ofList (lower text) ∉ ownWords) (hhead : text.head? ≠ some '\\')
    (hdeclared : ∀ e ∈ index.classes.values,
      (TypeValue.ofClassText e.name.text).isReservedClass = false) :
    (TypeValue.ofClassText ((if text.contains '\\' then none
      else index.findClass? scope.name.namespaceName (String.ofList text)).getD
        (.ofText (String.ofList text))).text).isReservedClass = false := by
  cases hfound : (if text.contains '\\' then none
      else index.findClass? scope.name.namespaceName (String.ofList text)) with
  | some declared =>
    rw [Option.getD_some]
    split at hfound
    · cases hfound
    · obtain ⟨e, he, rfl⟩ := Option.map_eq_some_iff.mp hfound
      exact hdeclared e (List.mem_map.mpr ⟨_, (SortedMap.mem_entries_iff _).mpr he, rfl⟩)
  | none =>
    have hslash : text.head?.any (· == '\\') = false := by
      cases hc : text.head? with
      | none => rfl
      | some c =>
        rw [hc] at hhead
        simpa using hhead
    rw [Option.getD_none, isReservedClass_ofClassText,
      ofText_ofText_of_not_blank (not_blank_of_isClassName hname), ClassName.dropLeadingBackslashes,
      dropWhile_of_head hslash, ← Bool.not_eq_true, isReserved, List.contains_iff_mem, lowerString,
      onString, String.toList_ofList]
    exact fun hreserved => hown (ownWords_of_reservedWords _ hreserved)

/-- What the classes that a name can stand for are: a class named with backslashes in front, the
target of an alias, a declared class, or a class of the same name. -/
theorem resolveClass_isReservedClass (hname : isClassName text = true)
    (hown : String.ofList (lower text) ∉ ownWords)
    (hdeclared : ∀ e ∈ index.classes.values,
      (TypeValue.ofClassText e.name.text).isReservedClass = false)
    (himports : ∀ e ∈ scope.imports.entries, isReserved e.2 = false) :
    (TypeValue.ofClassText (resolveClass text scope index).text).isReservedClass = true ↔
      Slashed text ∨ ThroughAlias scope.imports text := by
  have hblank := not_blank_of_isClassName hname
  cases text with
  | nil => exact absurd hname (by decide)
  | cons c rest =>
    by_cases hc : c = '\\'
    · subst hc
      have hresolve : resolveClass ('\\' :: rest) scope index = .ofText (String.ofList rest) := rfl
      rw [hresolve, isReservedClass_ofClassText,
        ofText_ofText_of_not_blank fun d hd => hblank d (List.mem_cons_of_mem _ hd)]
      simp [Slashed, ThroughAlias, ClassName.dropLeadingBackslashes]
    · have hcut : dropHead? ['\\'] (c :: rest) = none := by simp [dropHead?, Ne.symm hc]
      have hslashed : ¬Slashed (c :: rest) := by simp [Slashed, hc]
      have hhead : (c :: rest).head? ≠ some '\\' := by simpa using hc
      rw [resolveClass, hcut]
      simp only [hslashed, false_or]
      cases hexpand : Php.Imports.expand? scope.imports (c :: rest) with
      | some target => exact isReservedClass_expand? hown hhead himports hexpand
      | none =>
        have hnot : ¬ThroughAlias scope.imports (c :: rest) := by
          rintro ⟨-, -, target, htarget, -, -⟩
          rw [hexpand] at htarget
          cases htarget
        simp only [hnot, iff_false, Bool.not_eq_true]
        exact isReservedClass_findClass? hname hown hhead hdeclared

/-- Which doc types mean a class named by a reserved word, where no class and no target of an alias
is one: the reserved words with a backslash in front, and names that begin with an alias for
something that is no qualified name. The same doc types lead to declarations of a reserved word with
a backslash in front. -/
theorem reserved_class_iff {text : String}
    (howner : (TypeValue.ofClass owner.name).isReservedClass = false)
    (hdeclared : ∀ e ∈ index.classes.values,
      (TypeValue.ofClassText e.name.text).isReservedClass = false)
    (himports : ∀ e ∈ scope.imports.entries, isReserved e.2 = false) :
    ((∃ t, resolve text owner scope index = some t ∧ t.isReservedClass = true) ↔
      isClassName (bareOf text.toList) = true ∧
        (Slashed (bareOf text.toList) ∨ ThroughAlias scope.imports (bareOf text.toList))) ∧
    ((∃ t word, resolve text owner scope index = some t ∧ t.hintName? = some ("\\" ++ word) ∧
        isReserved word = true) ↔
      isClassName (bareOf text.toList) = true ∧
        (Slashed (bareOf text.toList) ∨ ThroughAlias scope.imports (bareOf text.toList))) := by
  have hclass : (∃ t, resolve text owner scope index = some t ∧ t.isReservedClass = true) ↔
      isClassName (bareOf text.toList) = true ∧
        (Slashed (bareOf text.toList) ∨ ThroughAlias scope.imports (bareOf text.toList)) := by
    rw [resolve, resolveWithin_isReservedClass (by rw [String.length_toList]; omega) rfl]
    constructor
    · intro h
      obtain ⟨hname, hown⟩ := isClassName_of_isReservedClass howner h
      rw [resolveBare_of_isClassName hname hown] at h
      exact ⟨hname, (resolveClass_isReservedClass hname hown hdeclared himports).mp h⟩
    · rintro ⟨hname, hways⟩
      have hown : String.ofList (lower (bareOf text.toList)) ∉ ownWords := by
        rcases hways with hslashed | halias
        · exact hslashed.not_own
        · exact halias.2.1
      rw [resolveBare_of_isClassName hname hown]
      exact (resolveClass_isReservedClass hname hown hdeclared himports).mpr hways
  refine ⟨hclass, hclass.symm.trans ?_ |>.symm⟩
  simp only [isReservedClass_iff_hint, exists_and_left]

end

def mailer : ClassInfo :=
  { name := ⟨"App\\Mailer"⟩, imports := .ofList [("Msg", "App\\Mail\\Message")], declared := true }

theorem reserved_class_iff_void :
    (∃ t word, resolve " ?\\Void " mailer mailer {} = some t ∧ t.hintName? = some ("\\" ++ word) ∧
        isReserved word = true) ∧
      ¬∃ t, resolve "?Void" mailer mailer {} = some t ∧ t.isReservedClass = true := by
  have howner : (TypeValue.ofClass mailer.name).isReservedClass = false := by decide +kernel
  have himports : ∀ e ∈ mailer.imports.entries, isReserved e.2 = false := by decide +kernel
  refine ⟨(reserved_class_iff howner (by decide) himports).2.mpr ⟨by decide +kernel, .inl ?_⟩, ?_⟩
  · exact ⟨by decide +kernel, by decide +kernel⟩
  · rw [(reserved_class_iff howner (by decide) himports).1]
    rintro ⟨-, hslashed | halias⟩
    · exact absurd hslashed.1 (by decide +kernel)
    · exact halias.2.1 (by decide +kernel)

/-- A type that no declaration can name is taken for a class if it is written with a backslash in
front. -/
theorem void_taken_for_class :
    resolve "void" mailer mailer {} = some (.unresolvedWith .docComment "void") ∧
      resolve "\\void" mailer mailer {} = some (.object "" "void") ∧
      (TypeValue.object "" "void").hintName? = some "\\void" ∧
      resolve "\\int" mailer mailer {} = some (.object "" "int") ∧
      (TypeValue.object "" "int").hintName? = some "\\int" := by
  decide +kernel

end DocType
end SignatureInference
