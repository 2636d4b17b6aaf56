import SignatureInference.Proofs.Trace.FunctionNames
import SignatureInference.Trace.ValueType

/-! # Dumps of objects

An object is printed as the word `class`, the name of its class and perhaps its properties in
braces. None of the forms that other values are printed in begins that way, and what the properties
hold does not count unless it mentions a closure. The test for closures, however, ends at a word
boundary: it takes every name that begins with the part `Closure` for the class `Closure` itself.
-/
namespace SignatureInference.Trace

open Text FunctionName

def closureName : List Char := "Closure".toList

/-- An object as a trace prints it, with blanks around it. -/
structure ObjectDump where
  /-- Whether the name has a backslash in front. -/
  rooted : Bool
  name : QualifiedName
  /-- The properties, if they are printed. -/
  body? : Option (List Char)
  before : List Char
  after : List Char
  body_plain : ∀ body ∈ body?, ¬closureMark <:+: body
  before_blank : ∀ c ∈ before, isBlank c = true
  after_blank : ∀ c ∈ after, isBlank c = true

namespace ObjectDump

variable (d : ObjectDump)

def lead : List Char := if d.rooted then ['\\'] else []

def nameText : List Char := d.lead ++ joined d.name.parts

def bodyText : List Char :=
  match d.body? with
  | none => []
  | some body => ' ' :: '\x7b' :: ' ' :: (body ++ [' ', '\x7d'])

def core : List Char := classWord ++ ' ' :: (d.nameText ++ d.bodyText)

def printed : String := String.ofList (d.before ++ (d.core ++ d.after))

def StartsAtClosure : Prop := d.rooted = false ∧ d.name.parts.head? = some closureName

end ObjectDump

/-! ## Other values -/

theorem isOneOf_of_head {words : List String} {c : Char} (h : ∀ w ∈ words, w.toList.head? ≠ some c)
    (cs : List Char) :
    isOneOf words (c :: cs) = false := by
  rw [isOneOf, List.contains_eq_mem, decide_eq_false_iff_not]
  intro hmem
  exact h _ hmem (by rw [String.toList_ofList]; rfl)

/-- Apart from closures, no other value begins with the letter that dumps begin with. -/
theorem valueType_of_head {raw : String} {cs : List Char} (h : trim raw.toList = 'c' :: cs) :
    valueType raw =
      if isClosureValue ('c' :: cs) = true then .callable
      else objectType ((objectClass? ('c' :: cs)).getD ('c' :: cs)) := by
  have hstring : isStringValue ('c' :: cs) = false := rfl
  have harray : isArrayValue ('c' :: cs) = false := rfl
  have hbool : isOneOfFolded ["bool", "true", "false"] ('c' :: cs) = false := rfl
  have hnull : isOneOfFolded ["null"] ('c' :: cs) = false := rfl
  have hdigit : isDecimalDigit 'c' = false := by decide
  have hminus : dropMinus ('c' :: cs) = 'c' :: cs := rfl
  have hinteger : isIntegerValue ('c' :: cs) = false := by
    rw [isIntegerValue, hminus, isOneOf_of_head (by decide)]
    simp [isDigits, hdigit]
  have hfloat : isFloatValue ('c' :: cs) = false := by
    simp only [isFloatValue, hminus]
    rw [isOneOf_of_head (by decide), isOneOf_of_head (by decide),
      List.takeWhile_cons_of_neg (by simp [hdigit])]
    rfl
  simp only [valueType, h, hstring, harray, hbool, hinteger, hfloat, hnull,
    Bool.false_eq_true, if_false]

/-! ## The name in a dump -/

namespace ObjectDump

variable (d : ObjectDump)

theorem lead_cases : d.lead = [] ∨ d.lead = ['\\'] := by
  rw [lead]
  split
  · exact .inr rfl
  · exact .inl rfl

theorem plain_of_mem_nameText : ∀ c ∈ d.nameText, isBlank c = false ∧ c ≠ '\x7b' := by
  intro c hc
  rcases List.mem_append.mp hc with hc | hc
  · rcases d.lead_cases with hlead | hlead
    · rw [hlead] at hc
      cases hc
    · rw [hlead, List.mem_singleton] at hc
      rw [hc]
      decide
  · exact plain_of_mem_joined d.name c hc

theorem nameText_ne_nil : d.nameText ≠ [] := by
  obtain ⟨c, cs, hjoined, -⟩ := exists_cons_joined d.name.parts_ne_nil d.name.isIdentifier
  simp [nameText, hjoined]

theorem not_closureMark_infix_nameText : ¬closureMark <:+: d.nameText := fun h =>
  (d.plain_of_mem_nameText '\x7b' (h.subset List.mem_cons_self)).2 rfl

theorem head_bodyText {p : Char → Bool} (hp : p ' ' = false) : d.bodyText.head?.any p = false := by
  rw [bodyText]
  cases d.body? with
  | none => rfl
  | some body => exact hp

theorem trim_printed : trim d.printed.toList = d.core := by
  have hlast : ∃ u c, d.core = u ++ [c] ∧ isBlank c = false := by
    cases hbody : d.body? with
    | none =>
      obtain ⟨u, c, hname⟩ := (List.eq_nil_or_concat' d.nameText).resolve_left d.nameText_ne_nil
      refine ⟨classWord ++ ' ' :: u, c, ?_, (d.plain_of_mem_nameText c (by simp [hname])).1⟩
      simp [core, bodyText, hbody, hname]
    | some body =>
      refine ⟨classWord ++ ' ' :: (d.nameText ++ ' ' :: '\x7b' :: ' ' :: (body ++ [' '])), '\x7d',
        ?_, by decide⟩
      simp [core, bodyText, hbody]
  obtain ⟨u, c, hcore, hc⟩ := hlast
  rw [printed, String.toList_ofList, trim_blanks d.before_blank d.after_blank]
  apply trim_of_ends
  · rfl
  · rw [hcore, List.getLast?_concat]
    exact hc

theorem objectClass?_core : objectClass? d.core = some d.nameText := by
  have hjoined := isPart_of_mem_joined d.name.parts_ne_nil d.name.isIdentifier
  obtain ⟨c, cs, hcs, hstart, hslash⟩ := exists_cons_joined d.name.parts_ne_nil d.name.isIdentifier
  have htake : (joined d.name.parts ++ d.bodyText).takeWhile (fun c => isIdentPart c || c == '\\') =
      joined d.name.parts := takeWhile_append_of_head hjoined (d.head_bodyText (by decide))
  have hclass : dropHead? "class".toList d.core = some (' ' :: (d.nameText ++ d.bodyText)) :=
    dropHead?_append classWord _
  have hblanks : dropBlanks? (' ' :: (d.nameText ++ d.bodyText)) =
      some (d.nameText ++ d.bodyText) := by
    obtain ⟨e, es, hname⟩ := List.exists_cons_of_ne_nil d.nameText_ne_nil
    have he := (d.plain_of_mem_nameText e (by simp [hname])).1
    rw [dropBlanks?, if_pos (by decide), hname, List.cons_append, trimStart,
      List.dropWhile_cons_of_pos (by decide), List.dropWhile_cons_of_neg (by simp [he])]
  have hhead : (joined d.name.parts ++ d.bodyText).head?.any isIdentStart = true := by
    rw [hcs]
    exact hstart
  rw [objectClass?, hclass]
  simp only [Option.bind_eq_bind, Option.bind_some, hblanks]
  cases hrooted : d.rooted with
  | true =>
    simp only [nameText, lead, hrooted, if_true, List.cons_append, List.nil_append, hhead, htake]
  | false =>
    have hname : d.nameText = joined d.name.parts := by simp [nameText, lead, hrooted]
    rw [hname]
    split
    · next hrest =>
      rw [hcs] at hrest
      exact absurd (List.cons.inj hrest).1 hslash
    · simp only [hhead, if_true, htake, List.nil_append]

/-! ## Closures -/

theorem exists_behind_first {first : List Char} (h : d.name.parts.head? = some first) :
    ∃ tail, joined d.name.parts ++ d.bodyText = first ++ tail ∧
      tail.head?.any isWordChar = false := by
  obtain ⟨more, hparts⟩ := List.head?_eq_some_iff.mp h
  rw [hparts]
  by_cases hnil : more = []
  · exact ⟨d.bodyText, by rw [hnil, joined_singleton], d.head_bodyText (by decide)⟩
  · refine ⟨'\\' :: (joined more ++ d.bodyText), by simp [joined_cons first hnil], ?_⟩
    have hslash : isWordChar '\\' = false := by decide
    simpa using hslash

/-- The test for the class `Closure` goes by the first part of a name. -/
theorem starts_with_closure_iff :
    (∃ rest, d.nameText ++ d.bodyText = closureName ++ rest ∧ (!rest.head?.any isWordChar) = true) ↔
      d.StartsAtClosure := by
  have hword : ∀ c ∈ closureName, isWordChar c = true := by decide
  cases hrooted : d.rooted with
  | true =>
    constructor
    · rintro ⟨rest, hcut, -⟩
      rw [nameText, lead, hrooted, if_pos rfl] at hcut
      exact absurd (List.cons.inj hcut).1 (by decide)
    · rintro ⟨hplain, -⟩
      rw [hrooted] at hplain
      cases hplain
  | false =>
    obtain ⟨first, hfirst⟩ : ∃ first, d.name.parts.head? = some first :=
      ⟨_, List.head?_eq_some_head d.name.parts_ne_nil⟩
    obtain ⟨tail, htail, hboundary⟩ := d.exists_behind_first hfirst
    have hname : d.nameText = joined d.name.parts := by simp [nameText, lead, hrooted]
    have hidentifier : ∀ c ∈ first, isWordChar c = true := fun c hc =>
      isWordChar_of_isIdentPart
        (isIdentPart_of_mem (d.name.isIdentifier first (List.mem_of_head? hfirst)) c hc)
    rw [hname, htail, StartsAtClosure, hrooted, hfirst]
    constructor
    · rintro ⟨rest, hcut, hrest⟩
      have htake := congrArg (List.takeWhile isWordChar) hcut
      rw [takeWhile_append_of_head hidentifier hboundary,
        takeWhile_append_of_head hword (by simpa using hrest)] at htake
      exact ⟨rfl, congrArg some htake⟩
    · rintro ⟨-, hclosure⟩
      cases hclosure
      exact ⟨tail, rfl, by simp [hboundary]⟩

/-- A dump mentions no closure: there is none in the name, and none begins at the braces. -/
theorem not_closureMark_infix_core : ¬closureMark <:+: d.core := by
  have hspace : ' ' ∉ closureMark := by decide
  have hname := d.not_closureMark_infix_nameText
  have hclass : ¬closureMark <:+: classWord := by decide
  rw [core, infix_append_cons_iff hspace, not_or]
  refine ⟨hclass, ?_⟩
  rw [bodyText]
  cases hbody : d.body? with
  | none => simpa using hname
  | some body =>
    have hopen : ¬closureMark <:+: ['\x7b'] := by decide
    have hclose : ¬closureMark <:+: ['\x7d'] := by decide
    have hcut : d.nameText ++ ' ' :: '\x7b' :: ' ' :: (body ++ [' ', '\x7d']) =
        d.nameText ++ ' ' :: (['\x7b'] ++ ' ' :: (body ++ ' ' :: ['\x7d'])) := rfl
    simp only [hcut, infix_append_cons_iff hspace, not_or]
    exact ⟨hname, hopen, d.body_plain body hbody, hclose⟩

theorem isClosureValue_core_iff : isClosureValue d.core = true ↔ d.StartsAtClosure := by
  have hcut : ∀ rest, d.core = "class Closure".toList ++ rest ↔
      d.nameText ++ d.bodyText = closureName ++ rest := by
    intro rest
    have hword : "class Closure".toList = classWord ++ ' ' :: closureName := by decide
    rw [hword, core, List.append_assoc, List.cons_append, List.append_cancel_left_eq,
      List.cons_inj_right]
  have hmark : contains closureMark d.core = false := by
    rw [← Bool.not_eq_true, contains_iff]
    exact d.not_closureMark_infix_core
  rw [isClosureValue, hmark, Bool.or_false, any_dropHead?_iff, ← d.starts_with_closure_iff]
  simp only [hcut]

/-! ## The type of an object -/

theorem read?_nameText :
    read? (String.ofList d.nameText) = some ⟨d.name.outer, "", d.name.short, .function⟩ := by
  have hparts : ∀ part ∈ d.name.parts.dropLast, isIdentifier part = true := fun part hpart =>
    d.name.isIdentifier part (List.mem_of_mem_dropLast hpart)
  have hshort : isIdentifier d.name.short.toList = true := by
    rw [QualifiedName.short, String.toList_ofList]
    exact d.name.isIdentifier _ (List.getLast_mem _)
  have hname : OfIdentifiers ⟨d.name.outer, "", d.name.short, .function⟩ :=
    ⟨⟨hshort, .inl ⟨rfl, rfl⟩⟩, d.name.parts.dropLast, hparts, rfl⟩
  have htext : (FunctionName.text ⟨d.name.outer, "", d.name.short, .function⟩).toList =
      joined d.name.parts := by
    have hlocal : localText ⟨d.name.outer, "", d.name.short, .function⟩ =
        d.name.parts.getLast d.name.parts_ne_nil := by
      simp [localText, CallKind.sign, QualifiedName.short]
    rw [toList_text hparts rfl, hlocal, List.dropLast_append_getLast]
  have htrim : trim d.nameText = d.nameText := trim_of_no_blank fun c hc =>
    (d.plain_of_mem_nameText c hc).1
  have hclosure := d.not_closureMark_infix_nameText
  rw [← htrim] at hclosure
  rw [read?_eq_some_iff (by rwa [String.toList_ofList]), String.toList_ofList, htrim,
    nameText, ← htext]
  exact ⟨hname, (unrooted_append d.lead_cases hname.head_ne_backslash).symm⟩

theorem valueType_printed : valueType d.printed =
    if isClosureValue d.core = true then .callable else .object d.name.outer d.name.short := by
  obtain ⟨cs, hcs⟩ : ∃ cs, d.core = 'c' :: cs := ⟨_, rfl⟩
  have hobject : objectType ((objectClass? d.core).getD d.core) =
      .object d.name.outer d.name.short := by
    rw [objectClass?_core, Option.getD_some, objectType, read?_nameText]
  have htype := valueType_of_head (d.trim_printed.trans hcs)
  rwa [← hcs, hobject] at htype

theorem object_eq_callable_iff (name : QualifiedName) :
    TypeValue.object name.outer name.short = .callable ↔ name.parts = ["callable".toList] := by
  obtain ⟨parts, hne, hall⟩ := name
  obtain ⟨front, last, rfl⟩ := (List.eq_nil_or_concat' parts).resolve_left hne
  simp only [TypeValue.object, TypeValue.callable, TypeValue.mk.injEq, Shape.object.injEq, and_true,
    QualifiedName.outer, QualifiedName.short, List.dropLast_concat, List.getLast_append_singleton]
  constructor
  · rintro ⟨houter, hshort⟩
    have hlast : last = "callable".toList := by rw [← hshort, String.toList_ofList]
    have hfront : front = [] := by
      by_contra hnil
      obtain ⟨c, cs, hjoined, -⟩ := exists_cons_joined hnil fun part hpart =>
        hall part (by simp [hpart])
      have hempty := congrArg String.toList houter
      rw [String.toList_ofList, hjoined] at hempty
      cases hempty
    rw [hfront, hlast, List.nil_append]
  · intro hparts
    obtain ⟨hfront, hlast⟩ := List.append_inj' (hparts.trans (List.nil_append _).symm) rfl
    rw [hfront, (List.cons.inj hlast).1]
    decide

/-- An object has the type of its class unless the name begins with the part `Closure`, and then it
is taken for a closure. -/
theorem object_type_iff :
    (valueType d.printed = .object d.name.outer d.name.short ↔ ¬d.StartsAtClosure) ∧
      (valueType d.printed = .callable ↔ d.StartsAtClosure ∨
        d.name.parts = ["callable".toList]) := by
  rw [valueType_printed]
  by_cases hstarts : d.StartsAtClosure
  · have hcallable : d.name.parts ≠ ["callable".toList] := by
      intro hparts
      have hhead := hstarts.2
      rw [hparts] at hhead
      exact absurd hhead (by decide)
    have hobject := mt (object_eq_callable_iff d.name).mp hcallable
    rw [if_pos (d.isClosureValue_core_iff.mpr hstarts)]
    simp [hstarts, Ne.symm hobject]
  · rw [if_neg (mt d.isClosureValue_core_iff.mp hstarts), object_eq_callable_iff]
    simp [hstarts]

/-- An object with a value among its properties that reads like an array. -/
def accountDump : ObjectDump where
  rooted := true
  name := ⟨["App".toList, "Account".toList], by decide, by decide⟩
  body? := some "array(1)".toList
  before := ['\t']
  after := ['\n']
  body_plain := by
    have hplain : ¬closureMark <:+: "array(1)".toList := by decide
    simpa using hplain
  before_blank := by decide
  after_blank := by decide

theorem object_type_iff_account :
    accountDump.printed = "\tclass \\App\\Account \x7b array(1) \x7d\n" ∧
      valueType accountDump.printed = .object "App" "Account" := by
  have hstarts : ¬accountDump.StartsAtClosure := fun h => absurd h.1 (by decide)
  exact ⟨by decide, (object_type_iff accountDump).1.mpr hstarts⟩

def namespacedDump : ObjectDump where
  rooted := false
  name := ⟨[closureName, "X".toList], by decide, by decide⟩
  body? := none
  before := []
  after := []
  body_plain := by simp
  before_blank := by decide
  after_blank := by decide

/-- A class in a namespace `Closure` is taken for a closure. -/
theorem not_every_object_typed :
    ¬∀ d : ObjectDump, d.name.parts ≠ [closureName] →
      valueType d.printed = .object d.name.outer d.name.short := by
  intro h
  have hprinted : namespacedDump.printed = "class Closure\\X" := by decide
  have hcallable : valueType "class Closure\\X" = .callable := by decide
  have htype := h namespacedDump (by decide)
  rw [hprinted, hcallable] at htype
  exact absurd htype (by decide)

end ObjectDump
end SignatureInference.Trace
