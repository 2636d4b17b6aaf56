import SignatureInference.Php.Token
import SignatureInference.Proofs.Placement.Located

/-! # Formal parameters

A parameter is written with words such as `public`, a type, the signs of a reference and of a
variadic parameter, a name and a default, of which only the name has to be there. In a list of such
parameters an index finds the parameter that it counts to, at its type or else at its variable. A
type can be put in front of a variable only, and then the list has one type more and is the same
otherwise.
-/
namespace SignatureInference.Placement

open Text Source

/-! ## Nested brackets -/

def isCloser (c : Char) : Bool := c == ')' || c == ']' || c == '\x7d'

/-- Whether all brackets are closed, the last one that was opened first, and no comma stands outside
of them. The brackets in `pending` are still to be closed. -/
def isNested (pending : List Char) : List Char → Bool
  | [] => pending.isEmpty
  | c :: cs =>
    match closer? c with
    | some d => isNested (d :: pending) cs
    | none =>
      if isCloser c then pending.head? == some c && isNested pending.tail cs
      else (c != ',' || !pending.isEmpty) && isNested pending cs

theorem closer?_eq_some {c d : Char} (h : closer? c = some d) :
    c = '(' ∧ d = ')' ∨ c = '\x7b' ∧ d = '\x7d' ∨ c = '[' ∧ d = ']' := by
  unfold closer? at h
  split at h
  · exact .inl ⟨rfl, (Option.some.inj h).symm⟩
  · exact .inr (.inl ⟨rfl, (Option.some.inj h).symm⟩)
  · exact .inr (.inr ⟨rfl, (Option.some.inj h).symm⟩)
  · cases h

theorem isCloser_cases {c : Char} (h : isCloser c = true) : c = ')' ∨ c = ']' ∨ c = '\x7d' := by
  simpa [isCloser, or_assoc] using h

theorem isSeparator_of_not_bracket {c : Char} (hopen : closer? c = none)
    (hclose : isCloser c = false) (hcomma : c ≠ ',') : isSeparator c = false := by
  have hne (o : Char) (ho : (closer? o).isSome = true) : c ≠ o := by
    rintro rfl
    rw [hopen] at ho
    cases ho
  simp only [isCloser, Bool.or_eq_false_iff, beq_eq_false_iff_ne] at hclose
  simp [isSeparator, hclose, hcomma, hne '(' rfl, hne '[' rfl, hne '\x7b' rfl]

theorem isNested_cons {pending cs : List Char} {c : Char} (h : isNested pending (c :: cs) = true) :
    (∃ d, closer? c = some d ∧ isNested (d :: pending) cs = true) ∨
      (∃ rest, pending = c :: rest ∧ isCloser c = true ∧ isNested rest cs = true) ∨
      (closer? c = none ∧ isCloser c = false ∧ (c = ',' → pending ≠ []) ∧
        isNested pending cs = true) := by
  rw [isNested] at h
  split at h
  · next d hd => exact .inl ⟨d, hd, h⟩
  · next hd =>
    split at h
    · next hclose =>
      rw [Bool.and_eq_true, beq_iff_eq] at h
      obtain ⟨rest, rfl⟩ := List.head?_eq_some_iff.mp h.1
      exact .inr (.inl ⟨rest, rfl, hclose, h.2⟩)
    · next hclose =>
      rw [Bool.and_eq_true] at h
      refine .inr (.inr ⟨hd, by simpa using hclose, ?_, h.2⟩)
      rintro rfl rfl
      simp at h

theorem isNested_append {pending u v : List Char} (hu : isNested pending u = true)
    (hv : isNested [] v = true) :
    isNested pending (u ++ v) = true := by
  induction u generalizing pending with
  | nil =>
    obtain rfl : pending = [] := by simpa [isNested] using hu
    exact hv
  | cons c u ih =>
    rcases isNested_cons hu with ⟨d, hd, hu⟩ | ⟨rest, rfl, hclose, hu⟩ | ⟨hopen, hclose, hcomma, hu⟩
    · simp [isNested, hd, ih hu]
    · have hopen : closer? c = none := by rcases isCloser_cases hclose with rfl | rfl | rfl <;> rfl
      simp [isNested, hopen, hclose, ih hu]
    · simp only [List.cons_append, isNested, hopen, hclose, ih hu]
      by_cases hc : c = ','
      · simp [hcomma hc]
      · simp [hc]

theorem isNested_of_plain {t : List Char} (h : ∀ c ∈ t, isSeparator c = false) :
    isNested [] t = true := by
  induction t with
  | nil => rfl
  | cons c t ih =>
    have hc := h c List.mem_cons_self
    have hopen : closer? c = none := by
      cases ho : closer? c with
      | none => rfl
      | some d =>
        rcases closer?_eq_some ho with ⟨rfl, -⟩ | ⟨rfl, -⟩ | ⟨rfl, -⟩ <;>
          exact absurd hc (by decide)
    simp only [isSeparator, Bool.or_eq_false_iff, beq_eq_false_iff_ne] at hc
    simp [isNested, hopen, isCloser, hc, ih fun d hd => h d (List.mem_cons_of_mem _ hd)]

theorem glue_nil (texts : List (List Char)) : glue [] texts = texts := by
  cases texts <;> rfl

theorem parameterTexts_nested {pending u : List Char} (h : isNested pending u = true)
    (v : List Char) :
    parameterTexts pending.length (u ++ v) = glue u (parameterTexts 0 v) := by
  induction u generalizing pending with
  | nil =>
    obtain rfl : pending = [] := by simpa [isNested] using h
    exact (glue_nil _).symm
  | cons c u ih =>
    have hstep {depth : Nat} (hc : (c = ',' && (pending.length : Int) = 0) = false)
        (hdepth : depthAfter pending.length c = depth)
        (hu : parameterTexts depth (u ++ v) = glue u (parameterTexts 0 v)) :
        parameterTexts pending.length (c :: u ++ v) = glue (c :: u) (parameterTexts 0 v) := by
      rw [List.cons_append, parameterTexts_cons hc, hdepth, hu, glue_glue]
      rfl
    rcases isNested_cons h with ⟨d, hd, h⟩ | ⟨rest, rfl, hclose, h⟩ | ⟨hopen, hclose, hcomma, h⟩
    · refine hstep ?_ ?_ (ih h)
      · rcases closer?_eq_some hd with ⟨rfl, -⟩ | ⟨rfl, -⟩ | ⟨rfl, -⟩ <;> simp
      · rcases closer?_eq_some hd with ⟨rfl, -⟩ | ⟨rfl, -⟩ | ⟨rfl, -⟩ <;> simp [depthAfter]
    · refine hstep ?_ ?_ (ih h)
      · rcases isCloser_cases hclose with rfl | rfl | rfl <;> simp
      · rcases isCloser_cases hclose with rfl | rfl | rfl <;> simp [depthAfter]
    · refine hstep ?_ ?_ (ih h)
      · by_cases hc : c = ','
        · simp [hcomma hc]
        · simp [hc]
      · by_cases hc : c = ','
        · simp [hc, depthAfter]
        · have hplain := isSeparator_of_not_bracket hopen hclose hc
          simp only [isSeparator, Bool.or_eq_false_iff, beq_eq_false_iff_ne] at hplain
          simp [depthAfter, hplain]

theorem closingFrom_nested {pending u : List Char} (h : isNested pending u = true) {depth : Nat}
    (hdepth : 0 < depth) (pos : Nat) (v : List Char) :
    closingFrom '(' ')' (depth + pending.count ')') pos (u ++ v) =
      closingFrom '(' ')' depth (pos + byteLength u) v := by
  induction u generalizing pending pos with
  | nil =>
    obtain rfl : pending = [] := by simpa [isNested] using h
    rfl
  | cons c u ih =>
    rw [byteLength_cons, ← Nat.add_assoc]
    rcases isNested_cons h with ⟨d, hd, h⟩ | ⟨rest, rfl, hclose, h⟩ | ⟨hopen, hclose, -, h⟩
    · rw [← ih h]
      rcases closer?_eq_some hd with ⟨rfl, rfl⟩ | ⟨rfl, rfl⟩ | ⟨rfl, rfl⟩ <;>
        simp [closingFrom, Nat.add_assoc]
    · rw [← ih h]
      rcases isCloser_cases hclose with rfl | rfl | rfl
      · have hlt : ¬depth + (rest.count ')' + 1) ≤ 1 := by omega
        rw [List.count_cons_self, List.cons_append, closingFrom, if_neg (by decide),
          if_pos rfl, if_neg hlt, ← Nat.add_assoc, Nat.add_sub_cancel]
      · simp [closingFrom]
      · simp [closingFrom]
    · have hparen : c ≠ '(' := by
        rintro rfl
        cases hopen
      have hparen' : c ≠ ')' := by
        rintro rfl
        cases hclose
      rw [← ih h, List.cons_append, closingFrom, if_neg hparen, if_neg hparen']

/-! ## Texts with commas between them -/

def commaSeparated (texts : List (List Char)) : List Char := List.intercalate [','] texts

theorem commaSeparated_cons (text : List Char) (texts : List (List Char)) :
    commaSeparated (text :: texts) = text ++ texts.flatMap (',' :: ·) := by
  induction texts generalizing text with
  | nil => simp [commaSeparated]
  | cons next texts ih =>
    have hnext := ih next
    rw [commaSeparated] at hnext ⊢
    simp [List.intercalate_cons_cons, hnext]

theorem commaSeparated_append (before : List (List Char)) (text : List Char)
    (after : List (List Char)) :
    commaSeparated (before ++ text :: after) =
      before.flatMap (· ++ [',']) ++ (text ++ after.flatMap (',' :: ·)) := by
  induction before with
  | nil => exact commaSeparated_cons text after
  | cons first before ih =>
    have hrest : before ++ text :: after ≠ [] := by simp
    obtain ⟨next, texts, hnext⟩ := List.exists_cons_of_ne_nil hrest
    rw [hnext, commaSeparated_cons] at ih
    rw [List.cons_append, commaSeparated_cons, hnext, List.flatMap_cons, List.cons_append, ih]
    simp

theorem parameterTexts_commaSeparated {texts : List (List Char)} (hne : texts ≠ [])
    (h : ∀ text ∈ texts, isNested [] text = true) :
    parameterTexts 0 (commaSeparated texts) = texts := by
  obtain ⟨first, texts, rfl⟩ := List.exists_cons_of_ne_nil hne
  rw [commaSeparated_cons]
  clear hne
  induction texts generalizing first with
  | nil =>
    have hfirst := parameterTexts_nested (h first List.mem_cons_self) []
    simpa [parameterTexts, glue] using hfirst
  | cons next texts ih =>
    have hfirst := parameterTexts_nested (h first List.mem_cons_self)
      (',' :: (next ++ texts.flatMap (',' :: ·)))
    have hnext := ih next fun text htext => h text (List.mem_cons_of_mem _ htext)
    rw [List.flatMap_cons, List.cons_append]
    exact hfirst.trans (by simp [parameterTexts, hnext, glue])

theorem closingFrom_commaSeparated {texts : List (List Char)}
    (h : ∀ text ∈ texts, isNested [] text = true) {depth : Nat} (hdepth : 0 < depth) (pos : Nat)
    (v : List Char) :
    closingFrom '(' ')' depth pos (commaSeparated texts ++ v) =
      closingFrom '(' ')' depth (pos + byteLength (commaSeparated texts)) v := by
  cases texts with
  | nil => rfl
  | cons first texts =>
    rw [commaSeparated_cons]
    induction texts generalizing first pos with
    | nil => simpa using closingFrom_nested (h first List.mem_cons_self) hdepth pos v
    | cons next texts ih =>
      have hfirst := closingFrom_nested (h first List.mem_cons_self) hdepth pos
        (',' :: (next ++ texts.flatMap (',' :: ·) ++ v))
      have hnext := ih (pos + byteLength first + ','.utf8Size) next
        fun text htext => h text (List.mem_cons_of_mem _ htext)
      rw [List.flatMap_cons, List.append_assoc, List.cons_append, List.cons_append]
      refine hfirst.trans ?_
      rw [closingFrom, if_neg (by decide), if_neg (by decide), hnext]
      congr 1
      simp only [byteLength_append, byteLength_cons]
      omega

/-! ## One parameter -/

abbrev Blanks := { b : List Char // b.all isBlank = true }

/-- A parameter without its type and what stands in front of that. -/
structure Variable where
  /-- The blanks behind the sign of a reference, if there is one. -/
  reference : Option Blanks
  /-- The blanks behind the dots of a variadic parameter, if there are any. -/
  variadic : Option Blanks
  name : List Char
  /-- What stands behind the name: blanks, and perhaps a default. -/
  rest : List Char
  name_ne_nil : name ≠ []
  name_part : name.all Php.isNamePart = true
  rest_nested : isNested [] rest = true

def signed (sign : List Char) : Option Blanks → List Char
  | none => []
  | some b => sign ++ b.val

def Variable.text (x : Variable) : List Char :=
  signed ['&'] x.reference ++ (signed ['.', '.', '.'] x.variadic ++ '$' :: (x.name ++ x.rest))

/-- A text that is read as a type in front of the variable of a parameter. -/
structure IsType (type behind : List Char) : Prop where
  nested : isNested [] type = true
  first : ∃ c ∈ type.head?, isBlank c = false
  not_promotion : isPromotion (type.takeWhile isWordPart) = false
  /-- Dots of the type and of the variable that touch are read together. -/
  not_variable : beginsVariable (type ++ behind) = false

structure FormalParameter where
  /-- Blanks and words in front of the type or the variable. -/
  lead : List Char
  type : Option (List Char)
  var : Variable
  lead_modifiers : Modifiers lead
  type_isType : ∀ t ∈ type, IsType t var.text
  /-- The last word does not go on in the type. -/
  lead_apart : ∀ t ∈ type, ∀ d ∈ lead.getLast?, isWordPart d = true →
    ∀ c ∈ t.head?, isWordPart c = false

namespace Variable

variable (x : Variable)

theorem beginsVariable_text (z : List Char) : beginsVariable (x.text ++ z) = true := by
  rw [beginsVariable_iff, Variable.text]
  cases x.reference with
  | some b => exact ⟨['&'], by simp, _, by simp only [signed, List.append_assoc]; rfl⟩
  | none =>
    cases x.variadic with
    | some b =>
      exact ⟨['.', '.', '.'], by simp, _,
        by simp only [signed, List.append_assoc, List.nil_append]; rfl⟩
    | none => exact ⟨['$'], by simp, _, by simp only [signed, List.nil_append]; rfl⟩

theorem exists_text_eq_cons : ∃ c z, x.text = c :: z ∧ (c = '$' ∨ c = '&' ∨ c = '.') :=
  exists_cons_of_beginsVariable (by simpa using x.beginsVariable_text [])

theorem isNested_signed {sign : List Char} (hsign : isNested [] sign = true) (b : Option Blanks) :
    isNested [] (signed sign b) = true := by
  cases b with
  | none => rfl
  | some b =>
    refine isNested_append hsign (isNested_of_plain fun c hc => ?_)
    exact isSeparator_of_plain (.inl (List.all_eq_true.mp b.property c hc))

theorem isSeparator_of_isNamePart {c : Char} (h : Php.isNamePart c = true) :
    isSeparator c = false :=
  isSeparator_eq_false (by decide) h

theorem isNested_text : isNested [] x.text = true := by
  have hname : isNested [] x.name = true := isNested_of_plain fun c hc =>
    isSeparator_of_isNamePart (List.all_eq_true.mp x.name_part c hc)
  have hvariable : isNested [] ('$' :: (x.name ++ x.rest)) = true :=
    isNested_append (u := ['$']) (by decide) (isNested_append hname x.rest_nested)
  exact isNested_append (isNested_signed (by decide) _)
    (isNested_append (isNested_signed (by decide) _) hvariable)

end Variable

theorem Modifiers.isSeparator {l : List Char} (h : Modifiers l) :
    ∀ c ∈ l, isSeparator c = false := by
  induction h with
  | nil => simp
  | @blank c l hc hl ih =>
    intro d hd
    rcases List.mem_cons.mp hd with rfl | hd
    · exact isSeparator_of_plain (.inl hc)
    · exact ih d hd
  | @word w l hw hend hl ih =>
    intro d hd
    rcases List.mem_append.mp hd with hd | hd
    · refine Variable.isSeparator_of_isNamePart ?_
      simp [Php.isNamePart, isIdentPart_of_isAlpha (isAlpha_of_isPromotion hw hd)]
    · exact ih d hd

namespace FormalParameter

variable (p : FormalParameter)

/-- A parameter from its type on, or from its variable on if it has no type. -/
def declaration : List Char := p.type.getD [] ++ p.var.text

def text : List Char := p.lead ++ p.declaration

theorem isNested_text : isNested [] p.text = true := by
  refine isNested_append (isNested_of_plain p.lead_modifiers.isSeparator)
    (isNested_append ?_ p.var.isNested_text)
  cases h : p.type with
  | none => rfl
  | some t => exact (p.type_isType t h).nested

theorem fromType?_declaration : fromType? p.declaration = some p.declaration := by
  obtain ⟨c, z, hcz, hc⟩ := p.var.exists_text_eq_cons
  have hblank : isBlank c = false := by rcases hc with rfl | rfl | rfl <;> decide
  have hpart : isWordPart c = false := by rcases hc with rfl | rfl | rfl <;> decide +kernel
  rw [declaration, hcz]
  cases h : p.type with
  | none => exact fromType?_cons hblank hpart z
  | some t =>
    have ht := p.type_isType t h
    obtain ⟨d, hd, hfirst⟩ := ht.first
    obtain ⟨t', rfl⟩ := List.head?_eq_some_iff.mp hd
    rw [fromType?_eq, Option.getD_some, List.cons_append, trimStart_cons_of_not_blank hfirst,
      ← List.cons_append, takeWhile_stop hpart, ht.not_promotion, if_neg (by simp),
      if_neg (by simp)]

theorem fromType?_text : fromType? p.text = some p.declaration := by
  rw [text, fromType?_modifiers p.lead_modifiers, p.fromType?_declaration]
  intro d hd hpart c hc
  cases h : p.type with
  | none =>
    obtain ⟨e, z, hez, he⟩ := p.var.exists_text_eq_cons
    obtain rfl : e = c := by simpa [declaration, h, hez] using hc
    rcases he with rfl | rfl | rfl <;> decide +kernel
  | some t =>
    obtain ⟨e, he, -⟩ := (p.type_isType t h).first
    refine p.lead_apart t h d hd hpart c ?_
    obtain ⟨t', rfl⟩ := List.head?_eq_some_iff.mp he
    simpa [declaration, h] using hc

theorem beginsVariable_declaration {z : List Char} (hz : ∀ c ∈ z.head?, c = ',') :
    beginsVariable (p.declaration ++ z) = p.type.isNone := by
  rw [declaration]
  cases h : p.type with
  | none => exact p.var.beginsVariable_text z
  | some t =>
    have ht := (p.type_isType t h).not_variable
    cases z with
    | nil => simpa using ht
    | cons c z =>
      rw [hz c rfl, beginsVariable_stop (by decide)]
      exact ht

end FormalParameter

/-! ## A list of parameters -/

structure ParameterList where
  params : List FormalParameter
  /-- The blanks behind a comma at the end, if there is one, or those of a list without
  parameters. -/
  ending : Option Blanks
  ending_of_nil : params = [] → ending.isSome = true

namespace ParameterList

variable (l : ParameterList)

def slots : List (List Char) := l.params.map FormalParameter.text ++ l.ending.toList.map Subtype.val

def text : List Char := commaSeparated l.slots

def before (index : Nat) : List Char := (l.params.take index).flatMap fun p => p.text ++ [',']

def after (index : Nat) : List Char := (l.slots.drop (index + 1)).flatMap (',' :: ·)

/-- The list with another parameter in the place of one. -/
def set (index : Nat) (p : FormalParameter) : ParameterList where
  params := l.params.set index p
  ending := l.ending
  ending_of_nil h := l.ending_of_nil (by simpa using h)

theorem isNested_of_mem_slots : ∀ text ∈ l.slots, isNested [] text = true := by
  intro text h
  rcases List.mem_append.mp h with h | h
  · obtain ⟨p, -, rfl⟩ := List.mem_map.mp h
    exact p.isNested_text
  · obtain ⟨b, -, rfl⟩ := List.mem_map.mp h
    exact isNested_of_plain fun c hc =>
      isSeparator_of_plain (.inl (List.all_eq_true.mp b.property c hc))

theorem slots_ne_nil : l.slots ≠ [] := by
  intro h
  obtain ⟨hparams, hending⟩ := List.append_eq_nil_iff.mp h
  obtain ⟨b, hb⟩ := Option.isSome_iff_exists.mp (l.ending_of_nil (List.map_eq_nil_iff.mp hparams))
  simp [hb] at hending

theorem parameterTexts_text : parameterTexts 0 l.text = l.slots :=
  parameterTexts_commaSeparated l.slots_ne_nil l.isNested_of_mem_slots

theorem findClosing_text (front back : List Char) :
    findClosing (front ++ '(' :: (l.text ++ ')' :: back)) (byteLength front) =
      some (byteLength front + 1 + byteLength l.text) := by
  have hone : '('.utf8Size = 1 := by decide
  rw [findClosing_eq rfl, closingFrom, if_pos rfl, text,
    closingFrom_commaSeparated l.isNested_of_mem_slots (by omega), closingFrom,
    if_neg (by decide), if_pos rfl, if_pos (by omega), hone]

section

variable {l} {index : Nat} {p : FormalParameter}

theorem slots_eq (h : l.params[index]? = some p) :
    l.slots = (l.params.take index).map FormalParameter.text ++ p.text ::
      l.slots.drop (index + 1) := by
  obtain ⟨hlt, rfl⟩ := List.getElem?_eq_some_iff.mp h
  have hslot : index < l.slots.length := by
    simp only [slots, List.length_append, List.length_map]
    omega
  have hget : l.slots[index] = l.params[index].text := by
    simp only [slots]
    rw [List.getElem_append_left (by simpa using hlt), List.getElem_map]
  have htake : l.slots.take index = (l.params.take index).map FormalParameter.text := by
    rw [slots, List.take_append_of_le_length (by simpa using hlt.le), List.map_take]
  rw [← htake, ← hget, ← List.drop_eq_getElem_cons hslot, List.take_append_drop]

theorem text_eq (h : l.params[index]? = some p) :
    l.text = l.before index ++ (p.text ++ l.after index) := by
  rw [text, slots_eq h, commaSeparated_append, before, after, List.flatMap_map]

theorem text_set (h : l.params[index]? = some p) (p' : FormalParameter) :
    (l.set index p').text = l.before index ++ (p'.text ++ l.after index) := by
  obtain ⟨hlt, -⟩ := List.getElem?_eq_some_iff.mp h
  have hset : (l.set index p').params[index]? = some p' := by simp [set, hlt]
  rw [text_eq hset]
  have hbefore : (l.set index p').before index = l.before index := by
    simp [before, set, List.take_set_of_le]
  have hafter : (l.set index p').after index = l.after index := by
    have hlen : index < l.params.length := hlt
    simp only [after, slots, set]
    rw [List.drop_append, List.drop_append, List.map_set, List.drop_set_of_lt (by omega)]
    simp
  rw [hbefore, hafter]

theorem head?_after (index : Nat) : ∀ c ∈ (l.after index).head?, c = ',' := by
  intro c hc
  rw [after] at hc
  cases h : l.slots.drop (index + 1) with
  | nil => simp [h] at hc
  | cons text texts =>
    rw [h] at hc
    simpa using hc.symm

end

end ParameterList

end SignatureInference.Placement
