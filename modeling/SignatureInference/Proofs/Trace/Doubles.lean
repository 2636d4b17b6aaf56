import SignatureInference.Proofs.SortedMap
import SignatureInference.Proofs.Trace.DoubleSources

/-! # Doubles in namespaces of their own

A double of `App\User` is declared in the namespace `Double\App\User`, and the registry knows it by
that namespace. The namespaces of doubles lie inside each other if the names of the real types do,
and the registry goes by the first one in its order, which is the outermost. The double of a type
therefore stands for the declared type with the shortest name that is the type's own or that of a
namespace around it.
-/
namespace SignatureInference.Trace

open Text

/-! ## The registry -/

def doubleRoot : List Char := "Double".toList

namespace QualifiedName

def entry (name : QualifiedName) : String × String := ("Double\\" ++ name.text ++ "\\", name.text)

def space (name : QualifiedName) : QualifiedName where
  parts := doubleRoot :: name.parts
  parts_ne_nil := List.cons_ne_nil _ _
  isIdentifier := by
    intro part hpart
    rcases List.mem_cons.mp hpart with rfl | hpart
    · decide
    · exact name.isIdentifier part hpart

theorem toList_key (name : QualifiedName) :
    name.entry.1.toList = joined name.space.parts ++ ['\\'] := by
  have hspace : joined name.space.parts = doubleRoot ++ '\\' :: joined name.parts :=
    joined_cons _ name.parts_ne_nil
  have hroot : "Double\\".toList = doubleRoot ++ ['\\'] := by decide
  have hslash : "\\".toList = ['\\'] := by decide
  rw [hspace, entry, String.toList_append, String.toList_append, name.toList_text, hroot, hslash,
    List.append_assoc doubleRoot, List.singleton_append]

theorem backslash_mem_key (name : QualifiedName) : '\\' ∈ name.entry.1.toList := by
  rw [toList_key]
  exact List.mem_append_right _ List.mem_cons_self

end QualifiedName

namespace Doubles

theorem backslash_not_mem_of_mockDeclaration? {cs name types rest : List Char}
    (h : mockDeclaration? cs = some ((name, types), rest)) : '\\' ∉ name := by
  unfold mockDeclaration? at h
  simp only [Option.bind_eq_bind, Option.bind_eq_some_iff] at h
  obtain ⟨c₁, -, c₂, -, h⟩ := h
  split at h
  · cases h
  · obtain ⟨c₃, -, h⟩ := Option.bind_eq_some_iff.mp h
    obtain ⟨c₄, -, h⟩ := Option.bind_eq_some_iff.mp h
    obtain ⟨found, -, h⟩ := Option.bind_eq_some_iff.mp h
    cases h
    intro hmem
    have hpart := List.mem_takeWhile_imp hmem
    revert hpart
    decide

/-- A text declares mocks, whose names have no backslashes, and doubles in namespaces. -/
theorem mem_declared_cases {text : List Char} {e : String × String} (h : e ∈ declared text) :
    '\\' ∉ e.1.toList ∨ ∃ real ∈ findAll doubleDeclaration? text,
      e = ("Double\\" ++ String.ofList real ++ "\\", String.ofList real) := by
  simp only [declared, List.mem_append, List.mem_filterMap, List.mem_map] at h
  rcases h with ⟨⟨name, types⟩, hfound, hentry⟩ | ⟨real, hreal, rfl⟩
  · left
    obtain ⟨y, z, rest, -, hread⟩ := exists_of_mem_findAll hfound
    obtain ⟨real, -, rfl⟩ := Option.map_eq_some_iff.mp hentry
    rw [String.toList_ofList]
    exact backslash_not_mem_of_mockDeclaration? hread
  · exact .inr ⟨real, hreal, rfl⟩

theorem Declaration.entry_mem (d : Declaration) : d.real.entry ∈ declaredIn d.printed := by
  have hmentions : contains "Double\\".toList d.printed.toList = true := by
    have hspace : doubleSpace <+: escape doubleSpace := by decide
    have htext : doubleSpace <:+: d.text :=
      ⟨d.lead ++ (namespaceWord ++ [' ']),
        joined d.real.parts ++ ' ' :: '\x7b' :: (d.gap ++ d.classHead) ++ d.tail, by
          simp only [text, head, List.append_assoc, List.cons_append, List.nil_append]⟩
    have hprinted : d.printed.toList = escape d.text := String.toList_ofList
    rw [hprinted, contains_iff]
    exact hspace.isInfix.trans (infix_escape htext)
  have hdeclared : declaredIn d.printed = declared (unescape d.printed.toList) := by
    rw [declaredIn, hmentions, Bool.or_true, if_pos rfl]
  rw [hdeclared, d.unescape_printed, declared, d.findAll_text]
  exact List.mem_append_right _ List.mem_cons_self

/-- An argument of a call: the source of a double, or a text that opens no namespace for one. -/
inductive Argument where
  | source (d : Declaration)
  | other (text : String) (plain : ¬OpensDouble (unescape text.toList))

namespace Argument

def text : Argument → String
  | source d => d.printed
  | other text _ => text

def declaration? : Argument → Option Declaration
  | source d => some d
  | other _ _ => none

theorem mem_declaredIn_cases (a : Argument) {e : String × String} (h : e ∈ declaredIn a.text) :
    '\\' ∉ e.1.toList ∨ ∃ d, a.declaration? = some d ∧ e = d.real.entry := by
  have hdeclared : e ∈ declared (unescape a.text.toList) := by
    rw [declaredIn] at h
    split at h
    · exact h
    · cases h
  rcases mem_declared_cases hdeclared with hmock | ⟨real, hreal, rfl⟩
  · exact .inl hmock
  · right
    cases a with
    | source d =>
      rw [text, d.unescape_printed, d.findAll_text, List.mem_singleton] at hreal
      rw [hreal]
      exact ⟨d, rfl, rfl⟩
    | other text plain =>
      have hnil : findAll doubleDeclaration? (unescape (other text plain).text.toList) = [] :=
        findAll_eq_nil plain
      rw [hnil] at hreal
      cases hreal

end Argument

def sources (calls : List (List Argument)) : List Declaration :=
  calls.flatten.filterMap Argument.declaration?

def observed (calls : List (List Argument)) : Doubles :=
  (calls.map (·.map Argument.text)).foldl observe {}

theorem realTypes_foldl_observe (batches : List (List String)) (d : Doubles) :
    (batches.foldl observe d).realTypes =
      (batches.flatten.flatMap declaredIn).foldl (fun m e => m.insert e.1 e.2) d.realTypes := by
  induction batches generalizing d with
  | nil => rfl
  | cons batch batches ih =>
    rw [List.foldl_cons, ih, List.flatten_cons, List.flatMap_append, List.foldl_append]
    rfl

section

variable {calls : List (List Argument)}

theorem realTypes_observed : (observed calls).realTypes =
    (calls.flatten.flatMap fun a => declaredIn a.text).foldl (fun m e => m.insert e.1 e.2) ∅ := by
  rw [observed, realTypes_foldl_observe, ← List.map_flatten, List.flatMap_map]

theorem mem_observed_cases {e : String × String} (h : e ∈ (observed calls).realTypes.entries) :
    '\\' ∉ e.1.toList ∨ ∃ d ∈ sources calls, e = d.real.entry := by
  rw [realTypes_observed] at h
  rcases SortedMap.of_mem_foldl_insert h with hempty | hmem
  · cases hempty
  · obtain ⟨a, ha, he⟩ := List.mem_flatMap.mp hmem
    rcases a.mem_declaredIn_cases he with hmock | ⟨d, hd, heq⟩
    · exact .inl hmock
    · exact .inr ⟨d, List.mem_filterMap.mpr ⟨a, ha, hd⟩, heq⟩

theorem entry_inj {a b : QualifiedName} (h : a.entry.1 = b.entry.1) : a.entry = b.entry := by
  have htext : a.text = b.text := by
    rw [← String.toList_inj] at h ⊢
    simp only [QualifiedName.entry, String.toList_append] at h
    exact List.append_cancel_left (List.append_cancel_right h)
  rw [QualifiedName.entry, htext, QualifiedName.entry]

theorem entry_mem_observed {d : Declaration} (hd : d ∈ sources calls) :
    d.real.entry ∈ (observed calls).realTypes.entries := by
  obtain ⟨a, ha, hsource⟩ := List.mem_filterMap.mp hd
  have hdeclared : d.real.entry ∈ declaredIn a.text := by
    cases a with
    | source d' =>
      cases hsource
      exact d.entry_mem
    | other text plain => cases hsource
  have hcontains : (observed calls).realTypes.contains d.real.entry.1 = true := by
    rw [realTypes_observed]
    exact SortedMap.contains_foldl_insert (.inr ⟨_, List.mem_flatMap.mpr ⟨a, ha, hdeclared⟩, rfl⟩)
  obtain ⟨real, hreal⟩ := Option.isSome_iff_exists.mp hcontains
  have hmem := (SortedMap.mem_entries_iff _).mpr hreal
  rcases mem_observed_cases hmem with hmock | ⟨o, -, ho⟩
  · exact absurd d.real.backslash_mem_key hmock
  · have hkey : d.real.entry.1 = o.real.entry.1 := (Prod.ext_iff.mp ho).1
    rwa [entry_inj hkey, ← ho]

end

/-! ## Objects of doubles -/

theorem joinBackslashes_cons {c : Char} {cs : List Char} (h : c ≠ '\\' ∨ cs.head? ≠ some '\\') :
    joinBackslashes (c :: cs) = c :: joinBackslashes cs := by
  rw [joinBackslashes]
  rintro ds rfl rfl
  simp at h

theorem joinBackslashes_append {u : List Char} (hu : '\\' ∉ u) (v : List Char) :
    joinBackslashes (u ++ v) = u ++ joinBackslashes v := by
  induction u with
  | nil => rfl
  | cons c u ih =>
    rw [List.mem_cons, not_or] at hu
    rw [List.cons_append, joinBackslashes_cons (.inl (Ne.symm hu.1)), ih hu.2, List.cons_append]

theorem joinBackslashes_joined {parts : List (List Char)} (hne : parts ≠ [])
    (hparts : ∀ part ∈ parts, FunctionName.isIdentifier part = true) (v : List Char) :
    joinBackslashes (joined parts ++ v) = joined parts ++ joinBackslashes v := by
  induction parts with
  | nil => exact absurd rfl hne
  | cons part parts ih =>
    have hslash := backslash_not_mem (hparts part List.mem_cons_self)
    have hrest : ∀ p ∈ parts, FunctionName.isIdentifier p = true :=
      fun p hp => hparts p (List.mem_cons_of_mem _ hp)
    by_cases hnil : parts = []
    · subst hnil
      rw [joined_singleton, joinBackslashes_append hslash]
    · have hhead : (joined parts ++ v).head? ≠ some '\\' := by
        obtain ⟨c, cs, htext, -, hc⟩ := exists_cons_joined hnil hrest
        rw [htext]
        simpa using hc
      rw [joined_cons part hnil, List.append_assoc, joinBackslashes_append hslash, List.cons_append,
        joinBackslashes_cons (.inr hhead), ih hnil hrest, List.append_assoc, List.cons_append]

theorem takeWhile_joined (name : QualifiedName) {rest : List Char}
    (hrest : ∀ c ∈ rest.head?, (isBlank c || c == '\x7b') = true) :
    (joined name.parts ++ joinBackslashes rest).takeWhile (fun c => !isBlank c && c != '\x7b') =
      joined name.parts := by
  have hname : ∀ c ∈ joined name.parts, (!isBlank c && c != '\x7b') = true := by
    intro c hc
    have hpart := isPart_of_mem_joined name.parts_ne_nil name.isIdentifier c hc
    have hqualified := isQualified_joined name.parts_ne_nil name.isIdentifier
    have hblank := ClassName.not_blank_of_isQualified hqualified c hc
    have hbrace : c ≠ '\x7b' := by
      rintro rfl
      revert hpart
      decide
    simpa [hblank] using hbrace
  have hbehind : (joinBackslashes rest).takeWhile (fun c => !isBlank c && c != '\x7b') = [] := by
    cases rest with
    | nil => rfl
    | cons c rest =>
      have hc := hrest c rfl
      have hslash : c ≠ '\\' := by
        rintro rfl
        revert hc
        decide
      rw [joinBackslashes_cons (.inl hslash), List.takeWhile_cons_of_neg]
      cases hblank : isBlank c <;> simp_all
  rw [List.takeWhile_append_of_pos hname, hbehind, List.append_nil]

namespace Declaration

def doubleName (d : Declaration) : QualifiedName where
  parts := d.real.space.parts ++ [d.double]
  parts_ne_nil := List.append_ne_nil_of_left_ne_nil d.real.space.parts_ne_nil _
  isIdentifier := by
    intro part hpart
    rcases List.mem_append.mp hpart with hpart | hpart
    · exact d.real.space.isIdentifier part hpart
    · rw [List.mem_singleton.mp hpart]
      exact d.double_isIdentifier

/-- The dump of an object of the double: the name of its class, and what the dump says of the
object. -/
def dump (d : Declaration) (rest : List Char) : String :=
  "class " ++ d.doubleName.text ++ String.ofList rest

variable (d : Declaration)

theorem objectName?_dump {rest : List Char}
    (hrest : ∀ c ∈ rest.head?, (isBlank c || c == '\x7b') = true) :
    objectName? (d.dump rest) = some (joined d.doubleName.parts) := by
  have hne := d.doubleName.parts_ne_nil
  have hparts := d.doubleName.isIdentifier
  let word := "class ".toList
  have hdump : (d.dump rest).toList = word ++ (joined d.doubleName.parts ++ rest) := by
    have hrest : (String.ofList rest).toList = rest := String.toList_ofList
    rw [dump, String.toList_append, String.toList_append, d.doubleName.toList_text, hrest,
      List.append_assoc]
  have hjoin : trimStart (joinBackslashes (d.dump rest).toList) =
      word ++ (joined d.doubleName.parts ++ joinBackslashes rest) := by
    rw [hdump, joinBackslashes_append (by decide), joinBackslashes_joined hne hparts]
    apply trimStart_cons_of_not_blank
    decide
  have hdrop : dropHead? "class ".toList (trimStart (joinBackslashes (d.dump rest).toList)) =
      some (joined d.doubleName.parts ++ joinBackslashes rest) := by
    rw [hjoin]
    exact dropHead?_append word _
  have hfront := dropWhile_of_head (ClassName.ends_of_isQualified (isQualified_joined hne hparts)).1
  obtain ⟨c, cs, htext, -⟩ := exists_cons_joined hne hparts
  rw [objectName?, hdrop]
  simp only [Option.bind_eq_bind, Option.bind_some, takeWhile_joined d.doubleName hrest, hfront]
  exact if_neg (by simp [htext])

/-- The namespace of a type's doubles is in front of the name of a double if the name of the type
is, part by part, in front of that of the double's real type. -/
theorem key_prefix_iff (name : QualifiedName) :
    name.entry.1.toList <+: joined d.doubleName.parts ↔ name.parts <+: d.real.parts := by
  rw [name.toList_key]
  constructor
  · rintro ⟨w, hw⟩
    rw [List.append_assoc, List.singleton_append] at hw
    have hsplit := d.doubleName.splitWhere_text
    rw [← hw, splitWhere_append (by rfl), name.space.splitWhere_text] at hsplit
    obtain ⟨pieces, last, hlast⟩ : ∃ pieces last, splitWhere (· == '\\') w = pieces ++ [last] :=
      (List.eq_nil_or_concat' _).resolve_left (splitWhere_ne_nil _ w)
    have hcut : name.space.parts ++ pieces ++ [last] = d.real.space.parts ++ [d.double] := by
      rw [List.append_assoc, ← hlast]
      exact hsplit
    have hspace : doubleRoot :: name.parts ++ pieces = doubleRoot :: d.real.parts :=
      (List.append_inj' hcut rfl).1
    exact ⟨pieces, (List.cons.inj hspace).2⟩
  · rintro ⟨pieces, hpieces⟩
    have hspace : d.real.space.parts = name.space.parts ++ pieces :=
      congrArg (doubleRoot :: ·) hpieces.symm
    have hcut : d.doubleName.parts = name.space.parts ++ (pieces ++ [d.double]) := calc
      d.doubleName.parts = d.real.space.parts ++ [d.double] := rfl
      _ = name.space.parts ++ (pieces ++ [d.double]) := by rw [hspace, List.append_assoc]
    refine ⟨joined (pieces ++ [d.double]), ?_⟩
    rw [hcut, joined_append name.space.parts_ne_nil (by simp), List.append_assoc,
      List.singleton_append]

/-- A namespace covers the doubles of the types whose names begin with its own. -/
theorem covers_entry (name : QualifiedName) :
    covers name.entry.1 (joined d.doubleName.parts) = true ↔ name.parts <+: d.real.parts := by
  have hends : endsWith ['\\'] name.entry.1.toList = true := by
    rw [endsWith, startsWith_iff, name.toList_key]
    simp
  simp only [covers, hends, if_true]
  rw [startsWith_iff, key_prefix_iff]

theorem not_covers_mock {key : String} (hkey : '\\' ∉ key.toList) :
    covers key (joined d.doubleName.parts) = false := by
  have hends : endsWith ['\\'] key.toList = false := by
    rw [Bool.eq_false_iff, Ne, endsWith, startsWith_iff, List.reverse_prefix]
    intro hsuffix
    exact hkey (hsuffix.subset List.mem_cons_self)
  have hslash : '\\' ∈ joined d.doubleName.parts := by
    rw [doubleName, joined_append d.real.space.parts_ne_nil (by simp)]
    simp
  simp only [covers, hends, Bool.false_eq_true, if_false, beq_eq_false_iff_ne]
  rintro heq
  exact hkey (heq ▸ hslash)

end Declaration

theorem compare_lt_of_append {a b : String} {c : Char} {cs : List Char}
    (h : b.toList = a.toList ++ c :: cs) :
    compare a b = .lt := by
  have hlt : ∀ l : List Char, l < l ++ c :: cs := by
    intro l
    induction l with
    | nil => exact List.nil_lt_cons c cs
    | cons d l ih => exact List.cons_lt_cons_self.mpr ih
  have hab : a < b := by
    change a.toList < b.toList
    rw [h]
    exact hlt a.toList
  exact if_pos hab

/-- The registry has a namespace in front of those inside it. -/
theorem QualifiedName.compare_key {a b : QualifiedName} (h : a.parts <+: b.parts)
    (hne : a.parts ≠ b.parts) :
    compare a.entry.1 b.entry.1 = .lt := by
  obtain ⟨more, hmore⟩ := h
  have hnil : more ≠ [] := by
    rintro rfl
    exact hne (by rw [← hmore, List.append_nil])
  obtain ⟨c, cs, htext⟩ : ∃ c cs, joined more ++ ['\\'] = c :: cs := by
    cases joined more with
    | nil => exact ⟨'\\', [], rfl⟩
    | cons c cs => exact ⟨c, cs ++ ['\\'], rfl⟩
  have hkey : b.entry.1.toList = a.entry.1.toList ++ c :: cs := by
    have hspace : b.space.parts = a.space.parts ++ more := congrArg (doubleRoot :: ·) hmore.symm
    rw [b.toList_key, a.toList_key, hspace, joined_append a.space.parts_ne_nil hnil, ← htext]
    simp only [List.append_assoc, List.cons_append, List.nil_append]
  exact compare_lt_of_append hkey

section

variable {calls : List (List Argument)} {d : Declaration} {rest : List Char}

/-- An object of a double is taken for one of the declared type with the shortest name that is in
front. -/
theorem exists_shortest (hd : d ∈ sources calls)
    (hrest : ∀ c ∈ rest.head?, (isBlank c || c == '\x7b') = true) :
    ∃ o ∈ sources calls, o.real.parts <+: d.real.parts ∧
      (∀ o' ∈ sources calls, o'.real.parts <+: d.real.parts → o.real.parts <+: o'.real.parts) ∧
      (observed calls).replacement? (d.dump rest) = some ("class " ++ o.real.text) := by
  let name := joined d.doubleName.parts
  have hcovered : ∃ e ∈ (observed calls).realTypes.entries, covers e.1 name = true :=
    ⟨_, entry_mem_observed hd, (d.covers_entry d.real).mpr (List.prefix_refl _)⟩
  obtain ⟨e, hfind⟩ := Option.isSome_iff_exists.mp (List.find?_isSome.mpr hcovered)
  have hcovers := List.find?_some hfind
  rcases mem_observed_cases (List.mem_of_find?_eq_some hfind) with hmock | ⟨o, ho, rfl⟩
  · rw [d.not_covers_mock hmock] at hcovers
    cases hcovers
  · have hbegins := (d.covers_entry o.real).mp hcovers
    refine ⟨o, ho, hbegins, ?_, ?_⟩
    · intro o' ho' hbegins'
      rcases List.prefix_or_prefix_of_prefix hbegins hbegins' with h | h
      · exact h
      · by_cases hparts : o'.real.parts = o.real.parts
        · rw [hparts]
        · -- a shorter name would have been found first
          have hlt := QualifiedName.compare_key h hparts
          have hcovers' := (d.covers_entry o'.real).mpr hbegins'
          rcases SortedMap.first_of_find? hfind _ (entry_mem_observed ho') hcovers' with heq | hgt
          · rw [heq] at hlt
            simp at hlt
          · exact absurd hgt (Std.OrientedCmp.not_lt_of_lt hlt)
    · rw [replacement?, d.objectName?_dump hrest]
      simp only [Option.bind_eq_bind, Option.bind_some]
      rw [hfind]
      rfl

/-- Whatever calls come with the source of a double, an object of the double is taken for one of a
declared type: the one with the shortest name that begins the name of the real type. It is the real
type itself unless another declared type has the name of a namespace around it. -/
theorem own_type_iff (calls : List (List Argument)) (d : Declaration) (hd : d ∈ sources calls)
    (rest : List Char) (hrest : ∀ c ∈ rest.head?, (isBlank c || c == '\x7b') = true) :
    (∃ o ∈ sources calls, o.real.parts <+: d.real.parts ∧
      (∀ o' ∈ sources calls, o'.real.parts <+: d.real.parts → o.real.parts <+: o'.real.parts) ∧
      (observed calls).replacement? (d.dump rest) = some ("class " ++ o.real.text)) ∧
    ((observed calls).replacement? (d.dump rest) = some ("class " ++ d.real.text) ↔
      ∀ o ∈ sources calls, o.real.parts <+: d.real.parts → o.real.parts = d.real.parts) := by
  have hshortest := exists_shortest hd hrest
  refine ⟨hshortest, ?_⟩
  obtain ⟨o, ho, hbegins, hleast, hreplaced⟩ := hshortest
  rw [hreplaced]
  constructor
  · intro htext o' ho' hbegins'
    have hown : o.real.parts = d.real.parts := by
      apply QualifiedName.text_inj
      have hclass := congrArg String.toList (Option.some.inj htext)
      rw [String.toList_append, String.toList_append] at hclass
      exact String.toList_inj.mp (List.append_cancel_left hclass)
    exact hbegins'.eq_of_length_le (hown ▸ (hleast o' ho' hbegins').length_le)
  · intro honly
    rw [QualifiedName.text, QualifiedName.text, honly o ho hbegins]

end

def userName : QualifiedName := ⟨["App".toList, "User".toList], by decide, by decide⟩

def repositoryName : QualifiedName :=
  ⟨["App".toList, "User".toList, "Repository".toList], by decide, by decide⟩

def quotedDouble (real : QualifiedName) : Declaration where
  real
  double := "P1".toList
  gap := "\n\n".toList
  lead := "'".toList
  tail := " \x7b\n\x7d\x7d'".toList
  double_isIdentifier := by decide
  gap_isBlank := by decide
  lead_plain := by decide
  tail_plain := by decide
  lead_nonzero := by decide
  tail_nonzero := by decide

/-- Calls with a mock and with the doubles of a type and of a type in a namespace of that name. -/
def nestedCalls : List (List Argument) :=
  [[.other "'class Mock_Mailer_1a2b extends \\\\App\\\\Mailer\\n\x7b'"
    (not_opensDouble (by decide +kernel))],
    [.source (quotedDouble repositoryName), .source (quotedDouble userName)]]

theorem own_type_iff_nested :
    quotedDouble userName ∈ sources nestedCalls ∧
      quotedDouble repositoryName ∈ sources nestedCalls ∧
    (∀ c ∈ " \x7b \x7d".toList.head?, (isBlank c || c == '\x7b') = true) ∧
    (observed nestedCalls).replacement? ((quotedDouble userName).dump " \x7b \x7d".toList) =
      some ("class " ++ userName.text) ∧
    (observed nestedCalls).replacement? ((quotedDouble repositoryName).dump " \x7b \x7d".toList) ≠
      some ("class " ++ repositoryName.text) := by
  have hsources : sources nestedCalls = [quotedDouble repositoryName, quotedDouble userName] := rfl
  have huser : quotedDouble userName ∈ sources nestedCalls := by simp [hsources]
  have hrepository : quotedDouble repositoryName ∈ sources nestedCalls := by simp [hsources]
  have hrest : ∀ c ∈ " \x7b \x7d".toList.head?, (isBlank c || c == '\x7b') = true := by decide
  refine ⟨huser, hrepository, hrest, ?_, ?_⟩
  · apply (own_type_iff nestedCalls _ huser _ hrest).2.mpr
    intro o ho
    rw [hsources, List.mem_cons, List.mem_singleton] at ho
    rcases ho with rfl | rfl <;> decide
  · intro hown
    have honly := (own_type_iff nestedCalls _ hrepository _ hrest).2.mp hown _ huser
    revert honly
    decide

/-- The double of a type in the namespace `App\User` is taken for the type `App\User`, if that has a
double. -/
theorem double_taken_for_enclosing_type :
    let user :=
      "'namespace Double\\\\App\\\\User \x7b\\n\\nclass P1 extends " ++
      "\\\\App\\\\User \x7b\\n\x7d\x7d'"
    let repository :=
      "'namespace Double\\\\App\\\\User\\\\Repository \x7b\\n\\nclass P2 extends " ++
      "\\\\App\\\\User\\\\Repository \x7b\\n\x7d\x7d'"
    let dump := "class Double\\App\\User\\Repository\\P2 \x7b \x7d"
    ((observe {} [user]).observe [repository]).replacement? dump = some "class App\\User" := by
  decide +kernel

end Doubles

end SignatureInference.Trace
