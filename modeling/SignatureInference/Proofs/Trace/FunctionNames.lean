import SignatureInference.Proofs.QualifiedNames
import SignatureInference.Proofs.Text.Search

/-! # The grammar of function names

A name is an optional backslash, identifiers with backslashes between them and, for a method, the
sign of the call and one more identifier. The last of the joined identifiers is the class of a
method and the function itself otherwise, so every such text has one decomposition. The reader finds
it, and finds none for any other text that is not the name of a closure.
-/
namespace SignatureInference.Trace

open Text

def CallKind.sign : CallKind → List Char
  | .method => ['-', '>']
  | .static => [':', ':']
  | .closure => []
  | .function => []

namespace FunctionName

/-! ## Names and their texts -/

/-- A name without its namespace: the class, the sign of the call and the function. -/
def localText (f : FunctionName) :
    List Char := f.className.toList ++ (f.kind.sign ++ f.function.toList)

def text (f : FunctionName) : String :=
  String.ofList
    (if f.namespaceName = "" then f.localText
    else f.namespaceName.toList ++ '\\' :: f.localText)

structure LocallyNamed (f : FunctionName) : Prop where
  function : isIdentifier f.function.toList = true
  owner : f.kind = .function ∧ f.className = "" ∨
    (f.kind = .method ∨ f.kind = .static) ∧ isIdentifier f.className.toList = true

/-- All parts of a name are identifiers, those of its namespace included. -/
structure OfIdentifiers (f : FunctionName) : Prop extends LocallyNamed f where
  space : ∃ parts : List (List Char), (∀ part ∈ parts, isIdentifier part = true) ∧
    f.namespaceName = String.ofList (joined parts)

/-- What may follow the joined identifiers: nothing, or the sign of a call and an identifier. -/
def IsCall (tail : List Char) : Prop :=
  tail = [] ∨ ∃ sign ∈ [['-', '>'], [':', ':']], ∃ method, isIdentifier method = true ∧
  tail = sign ++ method

/-- The texts of names: perhaps a backslash, identifiers with backslashes between them, and perhaps
a call. -/
def IsNameText (cs : List Char) : Prop :=
  ∃ (lead : List Char) (name : QualifiedName) (tail : List Char),
    (lead = [] ∨ lead = ['\\']) ∧ IsCall tail ∧
    cs = lead ++ (joined name.parts ++ tail)

def unrooted (cs : List Char) : List Char := (dropHead? ['\\'] cs).getD cs

theorem exists_lead_unrooted (cs : List Char) :
    ∃ lead, (lead = [] ∨ lead = ['\\']) ∧ cs = lead ++ unrooted cs := by
  rw [unrooted]
  cases h : dropHead? ['\\'] cs with
  | none => exact ⟨[], .inl rfl, rfl⟩
  | some rest => exact ⟨['\\'], .inr rfl, eq_append_of_dropHead? h⟩

theorem unrooted_append {lead cs : List Char} (hlead : lead = [] ∨ lead = ['\\'])
    (hcs : '\\' ∉ cs.head?) :
    unrooted (lead ++ cs) = cs := by
  rcases hlead with rfl | rfl
  · cases cs with
    | nil => rfl
    | cons c cs =>
      have hne : '\\' ≠ c := by
        rintro rfl
        exact hcs rfl
      simp [unrooted, dropHead?, hne]
  · rw [unrooted, dropHead?_append, Option.getD_some]

theorem IsCall.isPart_of_mem {tail : List Char} (h : IsCall tail) :
    ∀ c ∈ tail, isIdentPart c = true ∨ c ∈ ['-', '>', ':'] := by
  intro c hc
  rcases h with rfl | ⟨sign, hsign, method, hmethod, rfl⟩
  · cases hc
  · have hsub : sign ⊆ ['-', '>', ':'] := by
      simp only [List.mem_cons, List.not_mem_nil, or_false] at hsign
      rcases hsign with rfl | rfl
      · simp
      · simp
    rcases List.mem_append.mp hc with hc | hc
    · exact .inr (hsub hc)
    · exact .inl (isIdentPart_of_mem hmethod c hc)

/-! ## Class, call and function -/

section

variable {f : FunctionName} {space : String} {cs first method : List Char}

theorem readLocal?_function (space : String) (hfirst : isIdentifier first = true) :
    readLocal? space first = some ⟨space, "", String.ofList first, .function⟩ := by
  have hparts := isIdentPart_of_mem hfirst
  have htake : first.takeWhile isIdentPart = first := List.takeWhile_eq_self_iff.mpr hparts
  have hdrop : first.dropWhile isIdentPart = [] := List.dropWhile_eq_nil_iff.mpr hparts
  simp [readLocal?, htake, hdrop, hfirst]

theorem readLocal?_call (space : String) {kind : CallKind} (hkind : kind = .method ∨ kind = .static)
    (hfirst : isIdentifier first = true) (hmethod : isIdentifier method = true) :
    readLocal? space (first ++ (kind.sign ++ method)) =
      some ⟨space, String.ofList first, String.ofList method, kind⟩ := by
  have hparts := isIdentPart_of_mem hfirst
  have hsign : (kind.sign ++ method).head?.any isIdentPart = false := by
    rcases hkind with rfl | rfl
    · rfl
    · rfl
  have htake := takeWhile_append_of_head hparts hsign
  have hdrop := dropWhile_append_of_head hparts hsign
  simp only [readLocal?, htake, hdrop, hfirst, Bool.not_true, Bool.false_eq_true, if_false]
  rcases hkind with rfl | rfl
  · simp [CallKind.sign, hmethod]
  · simp [CallKind.sign, hmethod]

/-- A text without namespace is read as a name exactly if it is that name written out. -/
theorem readLocal?_eq_some_iff :
    readLocal? space cs = some f ↔ f.namespaceName = space ∧ f.LocallyNamed ∧ cs = f.localText := by
  constructor
  · intro h
    have hcs : cs.takeWhile isIdentPart ++ cs.dropWhile isIdentPart = cs :=
      List.takeWhile_append_dropWhile
    unfold readLocal? at h
    simp only at h
    split at h
    · cases h
    · next hfirst =>
      have hfirst : isIdentifier (cs.takeWhile isIdentPart) = true := by simpa using hfirst
      have call : ∀ (kind : CallKind) (method : List Char), (kind = .method ∨ kind = .static) →
          cs.dropWhile isIdentPart = kind.sign ++ method →
          (if isIdentifier method = true then
            some ⟨space, String.ofList (cs.takeWhile isIdentPart), String.ofList method, kind⟩
              else none) = some f →
          f.namespaceName = space ∧ f.LocallyNamed ∧ cs = f.localText := by
        intro kind method hkind hrest h
        split at h
        · next hmethod =>
          cases h
          refine ⟨rfl, ⟨by simpa using hmethod, .inr ⟨hkind, by simpa using hfirst⟩⟩, ?_⟩
          rw [hrest] at hcs
          simpa [localText] using hcs.symm
        · cases h
      split at h
      · next hrest =>
        cases h
        refine ⟨rfl, ⟨by simpa using hfirst, .inl ⟨rfl, rfl⟩⟩, ?_⟩
        rw [hrest] at hcs
        simpa [localText, CallKind.sign] using hcs.symm
      · next method hrest => exact call .method method (.inl rfl) hrest h
      · next method hrest => exact call .static method (.inr rfl) hrest h
      · cases h
  · rintro ⟨rfl, ⟨hfunction, howner⟩, rfl⟩
    obtain ⟨space, owner, function, kind⟩ := f
    rcases howner with ⟨rfl, rfl⟩ | ⟨hkind, howner⟩
    · simpa [localText, CallKind.sign] using readLocal?_function space hfunction
    · simpa [localText] using readLocal?_call space hkind howner hfunction

theorem LocallyNamed.exists_append (h : f.LocallyNamed) :
    ∃ first tail, isIdentifier first = true ∧ IsCall tail ∧ f.localText = first ++ tail := by
  obtain ⟨hfunction, ⟨hkind, howner⟩ | ⟨hkind, howner⟩⟩ := h
  · refine ⟨f.function.toList, [], hfunction, .inl rfl, ?_⟩
    simp [localText, hkind, howner, CallKind.sign]
  · refine ⟨f.className.toList, f.kind.sign ++ f.function.toList, howner, .inr ?_, rfl⟩
    refine ⟨f.kind.sign, ?_, f.function.toList, hfunction, rfl⟩
    rcases hkind with hkind | hkind
    · simp [hkind, CallKind.sign]
    · simp [hkind, CallKind.sign]

theorem LocallyNamed.backslash_not_mem (h : f.LocallyNamed) : '\\' ∉ f.localText := by
  obtain ⟨first, tail, hfirst, htail, heq⟩ := h.exists_append
  rw [heq, List.mem_append, not_or]
  refine ⟨Trace.backslash_not_mem hfirst, fun hmem => ?_⟩
  rcases htail.isPart_of_mem _ hmem with hpart | hsign
  · revert hpart
    decide
  · revert hsign
    decide

theorem exists_localText {tail : List Char} (space : String) (hfirst : isIdentifier first = true)
    (htail : IsCall tail) :
    ∃ f : FunctionName, f.namespaceName = space ∧ f.LocallyNamed ∧ f.localText = first ++ tail := by
  rcases htail with rfl | ⟨sign, hsign, method, hmethod, rfl⟩
  · refine ⟨⟨space, "", String.ofList first, .function⟩, rfl,
      ⟨by simpa using hfirst, .inl ⟨rfl, rfl⟩⟩, ?_⟩
    simp [localText, CallKind.sign]
  · obtain ⟨kind, hkind, rfl⟩ : ∃ kind : CallKind, (kind = .method ∨ kind = .static) ∧
        sign = kind.sign := by
      simp only [List.mem_cons, List.not_mem_nil, or_false] at hsign
      rcases hsign with rfl | rfl
      · exact ⟨.method, .inl rfl, rfl⟩
      · exact ⟨.static, .inr rfl, rfl⟩
    refine ⟨⟨space, String.ofList first, String.ofList method, kind⟩, rfl, ?_, ?_⟩
    · exact ⟨by simpa using hmethod, .inr ⟨hkind, by simpa using hfirst⟩⟩
    · simp [localText]

end

/-! ## Namespaces -/

section

variable {f : FunctionName} {cs tail : List Char} {parts : List (List Char)}

theorem joined_concat_append (parts : List (List Char)) (last tail : List Char) :
    joined (parts ++ [last ++ tail]) = joined (parts ++ [last]) ++ tail := by
  by_cases hnil : parts = []
  · simp [hnil]
  · rw [joined_append hnil (by simp), joined_append hnil (by simp)]
    simp

theorem toList_text (hparts : ∀ part ∈ parts, isIdentifier part = true)
    (hspace : f.namespaceName = String.ofList (joined parts)) :
    f.text.toList = joined (parts ++ [f.localText]) := by
  rw [text, String.toList_ofList, hspace]
  by_cases hnil : parts = []
  · subst hnil
    exact (joined_singleton f.localText).symm
  · obtain ⟨c, rest, hjoined, -⟩ := exists_cons_joined hnil hparts
    have hne : String.ofList (joined parts) ≠ "" := by
      intro hempty
      have hlist := congrArg String.toList hempty
      rw [String.toList_ofList, hjoined] at hlist
      cases hlist
    rw [if_neg hne, String.toList_ofList, joined_append hnil (by simp), joined_singleton]

/-- A text that does not stand for a closure is read as a name exactly if it is that name written
out, perhaps with a backslash in front. -/
theorem readPlain?_eq_some_iff :
    readPlain? cs = some f ↔ f.OfIdentifiers ∧ f.text.toList = unrooted cs := by
  constructor
  · intro h
    have hsplit := intercalate_splitWhere '\\' (unrooted cs)
    have hne := splitWhere_ne_nil (· == '\\') (unrooted cs)
    rw [readPlain?, ← unrooted] at h
    split at h
    · next hparts =>
      obtain ⟨hspace, hlocal, hlast⟩ := readLocal?_eq_some_iff.mp h
      rw [List.getLast?_eq_some_getLast hne, Option.getD_some] at hlast
      have hparts := List.all_eq_true.mp hparts
      refine ⟨⟨hlocal, _, hparts, hspace⟩, ?_⟩
      rw [toList_text hparts hspace, ← hlast, List.dropLast_append_getLast]
      exact hsplit
    · cases h
  · rintro ⟨⟨hlocal, parts, hparts, hspace⟩, htext⟩
    have hslash : ∀ part ∈ parts ++ [f.localText], '\\' ∉ part := by
      intro part hpart hmem
      rcases List.mem_append.mp hpart with hpart | hpart
      · exact backslash_not_mem (hparts part hpart) hmem
      · rw [List.mem_singleton.mp hpart] at hmem
        exact hlocal.backslash_not_mem hmem
    have hsplit : splitWhere (· == '\\') (unrooted cs) = parts ++ [f.localText] := by
      rw [← htext, toList_text hparts hspace, splitWhere_joined (by simp) hslash]
    rw [readPlain?, ← unrooted, hsplit]
    simp only [List.dropLast_concat, List.getLast?_concat, Option.getD_some,
      List.all_eq_true.mpr hparts, if_true]
    exact readLocal?_eq_some_iff.mpr ⟨hspace, hlocal, rfl⟩

theorem OfIdentifiers.exists_qualified (h : f.OfIdentifiers) :
    ∃ (name : QualifiedName) (tail : List Char), IsCall tail ∧
      f.text.toList = joined name.parts ++ tail := by
  obtain ⟨hlocal, parts, hparts, hspace⟩ := h
  obtain ⟨first, tail, hfirst, htail, heq⟩ := hlocal.exists_append
  have hall : ∀ part ∈ parts ++ [first], isIdentifier part = true := by
    intro part hpart
    rcases List.mem_append.mp hpart with hpart | hpart
    · exact hparts part hpart
    · rw [List.mem_singleton.mp hpart, hfirst]
  refine ⟨⟨parts ++ [first], by simp, hall⟩, tail, htail, ?_⟩
  rw [toList_text hparts hspace, heq, joined_concat_append]

theorem exists_text (name : QualifiedName) (htail : IsCall tail) :
    ∃ f : FunctionName, f.OfIdentifiers ∧ f.text.toList = joined name.parts ++ tail := by
  obtain ⟨all, hne, hall⟩ := name
  obtain ⟨parts, first, rfl⟩ := (List.eq_nil_or_concat' all).resolve_left hne
  have hparts : ∀ part ∈ parts, isIdentifier part = true :=
    fun part hpart => hall part (by simp [hpart])
  obtain ⟨f, hspace, hlocal, htext⟩ :=
    exists_localText (String.ofList (joined parts)) (hall first (by simp)) htail
  refine ⟨f, ⟨hlocal, parts, hparts, hspace⟩, ?_⟩
  rw [toList_text hparts hspace, htext, joined_concat_append]

theorem OfIdentifiers.head_ne_backslash (h : f.OfIdentifiers) : '\\' ∉ f.text.toList.head? := by
  obtain ⟨name, tail, -, htext⟩ := h.exists_qualified
  obtain ⟨c, rest, hjoined, -, hc⟩ := exists_cons_joined name.parts_ne_nil name.isIdentifier
  rw [htext, hjoined]
  simpa using hc

/-- The texts of names are those of names made of identifiers, perhaps with a backslash in front. -/
theorem isNameText_iff :
    IsNameText cs ↔ ∃ f : FunctionName, f.OfIdentifiers ∧ f.text.toList = unrooted cs := by
  constructor
  · rintro ⟨lead, name, tail, hlead, htail, rfl⟩
    obtain ⟨f, hf, htext⟩ := exists_text name htail
    refine ⟨f, hf, ?_⟩
    rw [← htext, unrooted_append hlead hf.head_ne_backslash]
  · rintro ⟨f, hf, htext⟩
    obtain ⟨name, tail, htail, hname⟩ := hf.exists_qualified
    obtain ⟨lead, hlead, hcs⟩ := exists_lead_unrooted cs
    exact ⟨lead, name, tail, hlead, htail, by rw [hcs, ← htext, hname]⟩

theorem plain_of_isIdentPart {c : Char} (h : isIdentPart c = true) :
    isBlank c = false ∧ c ≠ '\x7b' := by
  refine ⟨isBlank_of_isIdentPart h, ?_⟩
  rintro rfl
  cases h

theorem plain_of_mem_joined (name : QualifiedName) :
    ∀ c ∈ joined name.parts, isBlank c = false ∧ c ≠ '\x7b' := by
  intro c hc
  have hpart := isPart_of_mem_joined name.parts_ne_nil name.isIdentifier c hc
  rw [Bool.or_eq_true, beq_iff_eq] at hpart
  rcases hpart with hpart | rfl
  · exact plain_of_isIdentPart hpart
  · decide

theorem OfIdentifiers.plain (h : f.OfIdentifiers) :
    ∀ c ∈ f.text.toList, isBlank c = false ∧ c ≠ '\x7b' := by
  obtain ⟨name, tail, htail, htext⟩ := h.exists_qualified
  have hsigns : ∀ c ∈ ['-', '>', ':'], isBlank c = false ∧ c ≠ '\x7b' := by decide
  intro c hc
  rw [htext, List.mem_append] at hc
  rcases hc with hc | hc
  · exact plain_of_mem_joined name c hc
  · rcases htail.isPart_of_mem c hc with hpart | hsign
    · exact plain_of_isIdentPart hpart
    · exact hsigns c hsign

end

/-! ## Texts with blanks around them -/

variable {text : String} {f : FunctionName}

theorem read?_eq_some_iff (h : ¬closureMark <:+: trim text.toList) :
    read? text = some f ↔ f.OfIdentifiers ∧ f.text.toList = unrooted (trim text.toList) := by
  rw [read?, breakOn?_eq_none_iff.mpr h]
  exact readPlain?_eq_some_iff

theorem OfIdentifiers.read?_text (h : f.OfIdentifiers) : read? f.text = some f := by
  have htrim : trim f.text.toList = f.text.toList := trim_of_no_blank fun c hc => (h.plain c hc).1
  have hclosure : ¬closureMark <:+: f.text.toList := fun hmark =>
    (h.plain '\x7b' (hmark.subset List.mem_cons_self)).2 rfl
  rw [← htrim] at hclosure
  rw [read?_eq_some_iff hclosure, htrim]
  exact ⟨h, (@unrooted_append [] _ (.inl rfl) h.head_ne_backslash).symm⟩

/-- A text that is not the name of a closure is read exactly if it follows the grammar of names.
What is read consists of identifiers and gives the text when it is written out again, apart from
blanks around it and a backslash in front, and every name of identifiers is read back from its
text. -/
theorem names_read_exactly :
    (∀ text : String, ¬closureMark <:+: trim text.toList →
      ((∃ f, read? text = some f) ↔ IsNameText (trim text.toList)) ∧
      ∀ f, read? text = some f ↔ f.OfIdentifiers ∧ f.text.toList = unrooted (trim text.toList)) ∧
    ∀ f : FunctionName, f.OfIdentifiers → read? f.text = some f := by
  refine ⟨fun text h => ⟨?_, fun f => read?_eq_some_iff h⟩, fun f hf => hf.read?_text⟩
  rw [isNameText_iff]
  exact exists_congr fun f => read?_eq_some_iff h

theorem names_read_exactly_mailer :
    ¬closureMark <:+: trim "\t\\App\\Mailer->send\n".toList ∧
      read? "\t\\App\\Mailer->send\n" = some ⟨"App", "Mailer", "send", .method⟩ ∧
      read? "App\\Mailer->send" = some ⟨"App", "Mailer", "send", .method⟩ := by
  have hclosure : ¬closureMark <:+: trim "\t\\App\\Mailer->send\n".toList := by decide
  have hname : OfIdentifiers ⟨"App", "Mailer", "send", .method⟩ :=
    ⟨⟨by decide, by decide⟩, ["App".toList], by decide, by decide⟩
  have hwritten : FunctionName.text ⟨"App", "Mailer", "send", .method⟩ = "App\\Mailer->send" := by
    decide
  have hblanks := ((names_read_exactly.1 _ hclosure).2 _).mpr ⟨hname, by decide⟩
  have hback := names_read_exactly.2 _ hname
  rw [hwritten] at hback
  exact ⟨hclosure, hblanks, hback⟩

end FunctionName
end SignatureInference.Trace
