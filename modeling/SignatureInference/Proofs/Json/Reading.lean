import Mathlib.Data.List.Basic
import SignatureInference.Json.Reader
import SignatureInference.Json.Writer

/-! # Reading back what was written

A value whose strings are texts and whose numbers are natural is read back from its compact form.
-/
namespace SignatureInference.Json

/-! ## Strings -/

theorem hexUnit?_hexDigit : ∀ n < 32,
    hexUnit? '0' '0' (hexDigit (n / 16)) (hexDigit (n % 16)) = some n := by
  decide

theorem readUnits?_pair {e c : Char} (he : e ≠ 'u') (h : escaped? e = some c) (rest : List Char) :
    readUnits? ('\\' :: e :: rest) = (readUnits? rest).map fun p => (c.toNat :: p.1, p.2) := by
  cases hrest : readUnits? rest <;> simp [readUnits?, he, h, hrest]

theorem readUnits?_escape (c : Char) (rest : List Char) :
    readUnits? (escape c ++ rest) = (readUnits? rest).map fun p => (c.toNat :: p.1, p.2) := by
  have hcode {n : Nat} (h : c.toNat = n) : c = Char.ofNat n := by rw [← h, Char.ofNat_toNat]
  unfold escape
  split
  · next h => subst h; exact readUnits?_pair (by decide) rfl rest
  split
  · next h => subst h; exact readUnits?_pair (by decide) rfl rest
  split
  · next h => subst h; exact readUnits?_pair (by decide) rfl rest
  split
  · next h => subst h; exact readUnits?_pair (by decide) rfl rest
  split
  · next h => subst h; exact readUnits?_pair (by decide) rfl rest
  split
  · next h => rw [hcode h]; exact readUnits?_pair (by decide) rfl rest
  split
  · next h => rw [hcode h]; exact readUnits?_pair (by decide) rfl rest
  split
  · next h =>
    cases hrest : readUnits? rest <;> simp [readUnits?, hexUnit?_hexDigit _ h, hrest]
  · next hquote hslash _ _ _ _ _ hcontrol =>
    cases hrest : readUnits? rest <;> simp [readUnits?, hquote, hslash, hcontrol, hrest]

theorem readUnits?_quote (cs rest : List Char) :
    readUnits? (cs.flatMap escape ++ '"' :: rest) = some (cs.map Char.toNat, rest) := by
  induction cs with
  | nil => simp [readUnits?]
  | cons c cs ih =>
    rw [List.flatMap_cons, List.append_assoc, readUnits?_escape, ih, Option.map_some, List.map_cons]

theorem not_surrogate (c : Char) :
    isHighSurrogate c.toNat = false ∧ isLowSurrogate c.toNat = false := by
  have hvalid : c.toNat < 0xD800 ∨ 0xDFFF < c.toNat ∧ c.toNat < 0x110000 := c.valid
  simp only [isHighSurrogate, isLowSurrogate, Bool.and_eq_false_iff, decide_eq_false_iff_not]
  omega

theorem unitsText?_toNat (cs : List Char) : unitsText? (cs.map Char.toNat) = some cs := by
  induction cs with
  | nil => rfl
  | cons c cs ih =>
    obtain ⟨hhigh, hlow⟩ := not_surrogate c
    cases cs with
    | nil => simp [unitsText?, hhigh, hlow]
    | cons d cs =>
      rw [List.map_cons, List.map_cons, unitsText?, ← List.map_cons, ih]
      simp [hhigh, hlow]

theorem readString?_quote (s : String) (rest : List Char) :
    readString? (s.toList.flatMap escape ++ '"' :: rest) = some (some s, rest) := by
  simp [readString?, readUnits?_quote, unitsText?_toNat]

/-! ## Numbers -/

/-- What may stand behind a value inside another one. -/
def Ends (rest : List Char) : Prop := ∀ c ∈ rest.head?, c = ',' ∨ c = ']' ∨ c = '\x7d'

theorem Ends.cases {rest : List Char} (h : Ends rest) :
    rest = [] ∨ ∃ c more, rest = c :: more ∧ (c = ',' ∨ c = ']' ∨ c = '\x7d') := by
  cases rest with
  | nil => exact .inl rfl
  | cons c more => exact .inr ⟨c, more, rfl, h c rfl⟩

theorem span_digits {ds rest : List Char} (hds : ∀ d ∈ ds, d.isDigit = true) (hrest : Ends rest) :
    (ds ++ rest).takeWhile Char.isDigit = ds ∧ (ds ++ rest).dropWhile Char.isDigit = rest := by
  have hstop : rest.takeWhile Char.isDigit = [] ∧ rest.dropWhile Char.isDigit = rest := by
    obtain rfl | ⟨c, more, rfl, rfl | rfl | rfl⟩ := hrest.cases
    · exact ⟨rfl, rfl⟩
    all_goals exact ⟨rfl, rfl⟩
  rw [List.takeWhile_append_of_pos hds, List.dropWhile_append_of_pos hds, hstop.1, hstop.2,
    List.append_nil]
  exact ⟨rfl, rfl⟩

theorem readNumber?_digits {d : Char} {ds rest : List Char} (hd : d.isDigit = true)
    (hds : ∀ e ∈ ds, e.isDigit = true) (hzero : d = '0' → ds = []) (hrest : Ends rest) :
    readNumber? (d :: ds ++ rest) = some (.number (String.ofList (d :: ds)), rest) := by
  have hall : ∀ e ∈ d :: ds, e.isDigit = true := by
    intro e he
    rcases List.mem_cons.mp he with rfl | he
    · exact hd
    · exact hds e he
  have hspan := span_digits hall hrest
  have hdigits : readDigits? (d :: ds ++ rest) = some (d :: ds, rest) := by
    unfold readDigits?
    rw [hspan.1, hspan.2]
  have hinteger : readInteger? (d :: ds ++ rest) = some (d :: ds, rest) := by
    unfold readInteger?
    rw [hdigits]
    simp only [Option.bind_eq_bind, Option.bind_some]
    split
    · next h =>
      obtain ⟨rfl, h⟩ := List.cons.inj h
      rw [hzero rfl] at h
      cases h
    · rfl
  have hsign : d ≠ '-' := by
    rintro rfl
    cases hd
  have hfraction : readFraction? rest = some ([], rest) := by
    obtain rfl | ⟨c, more, rfl, rfl | rfl | rfl⟩ := hrest.cases
    all_goals rfl
  have hexponent : readExponent? rest = some ([], rest) := by
    obtain rfl | ⟨c, more, rfl, rfl | rfl | rfl⟩ := hrest.cases
    all_goals rfl
  unfold readNumber?
  split
  next sign cs heq =>
    have : (sign, cs) = ([], d :: ds ++ rest) := by
      rw [← heq]
      split
      · next h => exact absurd (List.cons.inj h).1 hsign
      · rfl
    obtain ⟨rfl, rfl⟩ := Prod.mk.inj this
    rw [hinteger]
    simp [hfraction, hexponent]

theorem head?_toDigits_ne_zero (n : Nat) (hn : n ≠ 0) : (Nat.toDigits 10 n).head? ≠ some '0' := by
  induction n using Nat.strongRecOn with
  | ind n ih =>
    rw [Nat.toDigits_eq_if (by decide)]
    split
    · next hlt =>
      have hdigit : ∀ k < 10, k ≠ 0 → Nat.digitChar k ≠ '0' := by decide
      simpa using hdigit n hlt hn
    · next hle =>
      have hhead := ih (n / 10) (by omega) (by omega)
      rwa [List.head?_append_of_ne_nil _ Nat.toDigits_ne_nil]

theorem toDigits_cases (n : Nat) : ∃ d ds, Nat.toDigits 10 n = d :: ds ∧ d.isDigit = true ∧
    (∀ e ∈ ds, e.isDigit = true) ∧ (d = '0' → ds = []) := by
  obtain ⟨d, ds, hdigits⟩ := List.exists_cons_of_ne_nil (Nat.toDigits_ne_nil (n := n) (b := 10))
  have hall : ∀ e ∈ d :: ds, e.isDigit = true := by
    intro e he
    rw [← hdigits] at he
    exact Nat.isDigit_of_mem_toDigits (by decide) (by decide) he
  refine ⟨d, ds, hdigits, hall d List.mem_cons_self,
    fun e he => hall e (List.mem_cons_of_mem _ he), ?_⟩
  rintro rfl
  by_cases hn : n = 0
  · subst hn
    cases hdigits
    rfl
  · exact absurd (by rw [hdigits]; rfl) (head?_toDigits_ne_zero n hn)

/-! ## Values -/

theorem compact_ofNat (n : Nat) : compact (ofNat n) = Nat.toDigits 10 n := by
  rw [ofNat, compact, Nat.toString_eq_ofList_toDigits, String.toList_ofList]

theorem compact_ofString (s : String) :
    compact (ofString s) = '"' :: (s.toList.flatMap escape ++ ['"']) := by
  rw [ofString, compact, quote]
  rfl

def laterFields (fields : List (String × Json)) : List Char :=
  compactFields (fields.map fun f => (some f.1, f.2))

theorem laterFields_cons (f : String × Json) (fields : List (String × Json)) :
    laterFields (f :: fields) =
      ',' :: (quote (some f.1) ++ ':' :: (compact f.2 ++ laterFields fields)) := by
  simp [laterFields, compactFields]

theorem compact_ofFields_cons (f : String × Json) (fields : List (String × Json)) :
    compact (ofFields (f :: fields)) =
      '\x7b' :: (quote (some f.1) ++ ':' :: (compact f.2 ++ (laterFields fields ++ ['\x7d']))) := by
  simp [ofFields, compact, laterFields]

theorem compact_array_cons (item : Json) (items : List Json) :
    compact (.array (item :: items)) = '[' :: (compact item ++ (compactItems items ++ [']'])) := by
  simp [compact]

theorem skipSpace_cons {c : Char} (hc : isSpace c = false) (cs : List Char) :
    skipSpace (c :: cs) = c :: cs := by
  rw [skipSpace, List.dropWhile_cons_of_neg (by simp [hc])]

/-- Values whose strings are texts and whose numbers are natural. -/
inductive Plain : Json → Prop
  | null : Plain .null
  | bool (b : Bool) : Plain (.bool b)
  | number (n : Nat) : Plain (ofNat n)
  | text (s : String) : Plain (ofString s)
  | array {items : List Json} (h : ∀ j ∈ items, Plain j) : Plain (.array items)
  | object {fields : List (String × Json)} (h : ∀ f ∈ fields, Plain f.2) : Plain (ofFields fields)

theorem Plain.head {j : Json} (h : Plain j) :
    ∃ c cs, compact j = c :: cs ∧ isSpace c = false ∧ c ≠ ']' := by
  cases h with
  | null => exact ⟨'n', _, rfl, rfl, by decide⟩
  | bool b =>
    cases b with
    | true => exact ⟨'t', _, rfl, rfl, by decide⟩
    | false => exact ⟨'f', _, rfl, rfl, by decide⟩
  | number n =>
    obtain ⟨d, ds, hdigits, hd, -, -⟩ := toDigits_cases n
    refine ⟨d, ds, (compact_ofNat n).trans hdigits, ?_, ?_⟩
    · rw [isSpace, ← Bool.not_eq_true]
      simp only [Bool.or_eq_true, beq_iff_eq]
      rintro (((rfl | rfl) | rfl) | rfl) <;> cases hd
    · rintro rfl
      cases hd
  | text s => exact ⟨'"', _, compact_ofString s, rfl, by decide⟩
  | @array items _ =>
    cases items with
    | nil => exact ⟨'[', _, rfl, rfl, by decide⟩
    | cons item items => exact ⟨'[', _, compact_array_cons item items, rfl, by decide⟩
  | @object fields _ =>
    cases fields with
    | nil => exact ⟨'\x7b', _, rfl, rfl, by decide⟩
    | cons f fields => exact ⟨'\x7b', _, compact_ofFields_cons f fields, rfl, by decide⟩

/-- A value is read off the front of a text by as many steps as it has characters. -/
def ReadsBack (j : Json) : Prop :=
  ∀ rest, Ends rest → ∀ steps, (compact j).length ≤ steps →
    readValue? steps (compact j ++ rest) = some (j, rest)

theorem readValue?_atom {c : Char} (hspace : isSpace c = false) (hc : c ≠ '[' ∧ c ≠ '\x7b')
    (steps : Nat) (cs : List Char) : readValue? (steps + 1) (c :: cs) = readAtom? (c :: cs) := by
  rw [readValue?, skipSpace_cons hspace]
  split
  · next h => exact absurd (List.cons.inj h).1 hc.1
  · next h => exact absurd (List.cons.inj h).1 hc.2
  · rfl

theorem readsBack_of_readAtom? {j : Json} (hplain : Plain j)
    (hhead : ∀ c cs, compact j = c :: cs → c ≠ '[' ∧ c ≠ '\x7b')
    (h : ∀ rest, Ends rest → readAtom? (compact j ++ rest) = some (j, rest)) : ReadsBack j := by
  intro rest hrest steps hsteps
  obtain ⟨c, cs, hcompact, hspace, -⟩ := hplain.head
  obtain ⟨k, rfl⟩ : ∃ k, steps = k + 1 := by
    rw [hcompact, List.length_cons] at hsteps
    exact ⟨steps - 1, by omega⟩
  have hread := h rest hrest
  rw [hcompact, List.cons_append] at hread ⊢
  rw [readValue?_atom hspace (hhead c cs hcompact), hread]

theorem readsBack_ofNat (n : Nat) : ReadsBack (ofNat n) := by
  obtain ⟨d, ds, hdigits, hd, hds, hzero⟩ := toDigits_cases n
  have hvalue : ofNat n = .number (String.ofList (d :: ds)) := by
    rw [ofNat, Nat.toString_eq_ofList_toDigits, hdigits]
  have hne {c : Char} (hc : c.isDigit = false) : d ≠ c := by
    rintro rfl
    rw [hd] at hc
    cases hc
  refine readsBack_of_readAtom? (.number n) (fun c cs h => ?_) fun rest hrest => ?_
  · rw [compact_ofNat, hdigits] at h
    obtain ⟨rfl, -⟩ := List.cons.inj h
    exact ⟨hne rfl, hne rfl⟩
  · rw [compact_ofNat, hdigits, hvalue, ← readNumber?_digits hd hds hzero hrest]
    unfold readAtom?
    split
    · next h => exact absurd (List.cons.inj h).1 (hne rfl)
    · next h => exact absurd (List.cons.inj h).1 (hne rfl)
    · next h => exact absurd (List.cons.inj h).1 (hne rfl)
    · next h => exact absurd (List.cons.inj h).1 (hne rfl)
    · rfl

theorem readsBack_ofString (s : String) : ReadsBack (ofString s) := by
  refine readsBack_of_readAtom? (.text s) (fun c cs h => ?_) fun rest hrest => ?_
  · rw [compact_ofString] at h
    obtain ⟨rfl, -⟩ := List.cons.inj h
    decide
  · rw [compact_ofString, List.cons_append, List.append_assoc, List.singleton_append, readAtom?,
      readString?_quote]
    rfl

theorem ends_comma (cs : List Char) : Ends (',' :: cs) := by
  rintro c ⟨⟩
  exact .inl rfl

theorem ends_bracket (cs : List Char) : Ends (']' :: cs) := by
  rintro c ⟨⟩
  exact .inr (.inl rfl)

theorem ends_brace (cs : List Char) : Ends ('\x7d' :: cs) := by
  rintro c ⟨⟩
  exact .inr (.inr rfl)

theorem readItems?_compact {item : Json} {items : List Json} (h : ∀ j ∈ item :: items, ReadsBack j)
    (rest : List Char) {steps : Nat}
    (hsteps : (compact item ++ compactItems items).length < steps) :
    readItems? steps (compact item ++ (compactItems items ++ ']' :: rest)) =
      some (item :: items, rest) := by
  induction items generalizing item steps with
  | nil =>
    obtain ⟨k, rfl⟩ : ∃ k, steps = k + 1 := ⟨steps - 1, by omega⟩
    simp only [compactItems, List.append_nil] at hsteps
    rw [readItems?, compactItems, List.nil_append,
      h item List.mem_cons_self _ (ends_bracket rest) k (by omega)]
    rfl
  | cons next items ih =>
    obtain ⟨k, rfl⟩ : ∃ k, steps = k + 1 := ⟨steps - 1, by omega⟩
    simp only [compactItems, List.length_append, List.length_cons] at hsteps
    have hlater : readItems? k (compact next ++ (compactItems items ++ ']' :: rest)) =
        some (next :: items, rest) := by
      refine ih (fun j hj => h j (List.mem_cons_of_mem _ hj)) ?_
      rw [List.length_append]
      omega
    rw [readItems?, compactItems, List.cons_append, List.cons_append, List.append_assoc,
      h item List.mem_cons_self _ (ends_comma _) k (by omega)]
    simp only [Option.bind_eq_bind, Option.bind_some, skipSpace_cons (c := ',') rfl, hlater]
    rfl

theorem quote_append (name : String) (rest : List Char) :
    quote (some name) ++ rest = '"' :: (name.toList.flatMap escape ++ '"' :: rest) := by
  simp [quote]

theorem readFields?_compact {f : String × Json} {fields : List (String × Json)}
    (h : ∀ g ∈ f :: fields, ReadsBack g.2) (rest : List Char) {steps : Nat}
    (hsteps : (compact f.2 ++ laterFields fields).length < steps) :
    readFields? steps (quote (some f.1) ++ ':' ::
      (compact f.2 ++ (laterFields fields ++ '\x7d' :: rest))) =
      some ((f :: fields).map (fun g => (some g.1, g.2)), rest) := by
  induction fields generalizing f steps with
  | nil =>
    obtain ⟨k, rfl⟩ : ∃ k, steps = k + 1 := ⟨steps - 1, by omega⟩
    have hnil : laterFields [] = [] := rfl
    rw [hnil, List.append_nil] at hsteps
    rw [quote_append, readFields?, skipSpace_cons (c := '"') rfl, hnil, List.nil_append]
    simp only [readString?_quote, Option.bind_eq_bind, Option.bind_some,
      skipSpace_cons (c := ':') rfl, h f List.mem_cons_self _ (ends_brace rest) k (by omega),
      skipSpace_cons (c := '\x7d') rfl]
    rfl
  | cons next fields ih =>
    obtain ⟨k, rfl⟩ : ∃ k, steps = k + 1 := ⟨steps - 1, by omega⟩
    simp only [laterFields_cons, List.length_append, List.length_cons] at hsteps
    have hlater : readFields? k (quote (some next.1) ++
        ':' :: (compact next.2 ++ (laterFields fields ++ '\x7d' :: rest))) =
          some ((next :: fields).map (fun g => (some g.1, g.2)), rest) := by
      refine ih (fun g hg => h g (List.mem_cons_of_mem _ hg)) ?_
      rw [List.length_append]
      omega
    rw [quote_append, readFields?, skipSpace_cons (c := '"') rfl, laterFields_cons,
      List.cons_append, List.append_assoc, List.cons_append, List.append_assoc]
    simp only [readString?_quote, Option.bind_eq_bind, Option.bind_some,
      skipSpace_cons (c := ':') rfl, h f List.mem_cons_self _ (ends_comma _) k (by omega),
      skipSpace_cons (c := ',') rfl, hlater]
    rfl

/-- A plain value is read back from its compact form. -/
theorem Plain.readsBack {j : Json} (h : Plain j) : ReadsBack j := by
  induction h with
  | null =>
    refine readsBack_of_readAtom? .null (fun c cs h => ?_) fun rest _ => rfl
    cases h
    decide
  | bool b =>
    refine readsBack_of_readAtom? (.bool b) (fun c cs h => ?_) fun rest _ => ?_
    · cases b <;> cases h <;> decide
    · cases b <;> rfl
  | number n => exact readsBack_ofNat n
  | text s => exact readsBack_ofString s
  | @array items hitems ih =>
    intro rest hrest steps hsteps
    cases items with
    | nil =>
      obtain ⟨k, rfl⟩ : ∃ k, steps = k + 1 := ⟨steps - 1, by simp [compact] at hsteps; omega⟩
      rfl
    | cons item items =>
      rw [compact_array_cons] at hsteps ⊢
      simp only [List.length_cons, List.length_append, List.length_nil] at hsteps
      obtain ⟨k, rfl⟩ : ∃ k, steps = k + 1 := ⟨steps - 1, by omega⟩
      have hread : readItems? k (compact item ++ (compactItems items ++ ']' :: rest)) =
          some (item :: items, rest) :=
            readItems?_compact ih rest (by rw [List.length_append]; omega)
      obtain ⟨c, cs, hcompact, hspace, hc⟩ := (hitems item List.mem_cons_self).head
      rw [List.cons_append, List.append_assoc, List.append_assoc, List.singleton_append, readValue?,
        skipSpace_cons (c := '[') rfl]
      rw [hcompact, List.cons_append] at hread ⊢
      simp only [skipSpace_cons hspace]
      split
      · next heq => exact absurd (List.cons.inj heq).1 hc
      · rw [hread]
        rfl
  | @object fields hfields ih =>
    intro rest hrest steps hsteps
    cases fields with
    | nil =>
      obtain ⟨k, rfl⟩ : ∃ k, steps = k + 1 :=
        ⟨steps - 1, by simp [ofFields, compact] at hsteps; omega⟩
      rfl
    | cons f fields =>
      rw [compact_ofFields_cons] at hsteps ⊢
      simp only [List.length_cons, List.length_append, List.length_nil] at hsteps
      obtain ⟨k, rfl⟩ : ∃ k, steps = k + 1 := ⟨steps - 1, by omega⟩
      have hread : readFields? k
          (quote (some f.1) ++ ':' :: (compact f.2 ++ (laterFields fields ++ '\x7d' :: rest))) =
            some ((f :: fields).map (fun g => (some g.1, g.2)), rest) :=
        readFields?_compact ih rest (by rw [List.length_append]; omega)
      rw [quote_append] at hread
      rw [List.cons_append, List.append_assoc, List.cons_append, List.append_assoc,
        List.append_assoc, List.singleton_append, readValue?, skipSpace_cons (c := '\x7b') rfl,
        quote_append]
      simp only [skipSpace_cons (c := '"') rfl]
      split
      · next heq => exact absurd (List.cons.inj heq).1 (by decide)
      · rw [hread]
        rfl

theorem read?_compact {j : Json} (h : Plain j) : read? (compact j) = some j := by
  have hread := h.readsBack [] (fun c hc => by cases hc) (2 * (compact j).length + 1) (by omega)
  rw [List.append_nil] at hread
  rw [read?, hread]
  rfl

/-! ## Lines -/

theorem lineFeed_not_mem_escape (c : Char) : '\n' ∉ escape c := by
  have hdigit : ∀ n < 16, hexDigit n ≠ '\n' := by decide
  unfold escape
  split
  · decide
  split
  · decide
  split
  · decide
  split
  · decide
  split
  · decide
  split
  · decide
  split
  · decide
  split
  · next hcontrol =>
    have h1 := hdigit (c.toNat / 16) (by omega)
    have h2 := hdigit (c.toNat % 16) (by omega)
    simp [h1.symm, h2.symm]
  · next hfeed _ _ _ _ _ => simpa using Ne.symm hfeed

theorem lineFeed_not_mem_quote (s : String) : '\n' ∉ quote (some s) := by
  intro h
  have hmem : '\n' ∈ s.toList.flatMap escape := by simpa [quote] using h
  obtain ⟨c, -, hc⟩ := List.mem_flatMap.mp hmem
  exact lineFeed_not_mem_escape c hc

theorem Plain.lineFeed_not_mem {j : Json} (h : Plain j) : '\n' ∉ compact j := by
  induction h with
  | null => decide
  | bool b => cases b <;> decide
  | number n =>
    rw [compact_ofNat]
    intro hmem
    cases Nat.isDigit_of_mem_toDigits (by decide) (by decide) hmem
  | text s => exact lineFeed_not_mem_quote s
  | @array items _ ih =>
    have hitems : ∀ items : List Json, (∀ j ∈ items, '\n' ∉ compact j) →
        '\n' ∉ compactItems items := by
      intro items h
      induction items with
      | nil => simp [compactItems]
      | cons j items ihs =>
        simp [compactItems, h j List.mem_cons_self, ihs fun k hk => h k (List.mem_cons_of_mem _ hk)]
    cases items with
    | nil => decide
    | cons item items =>
      rw [compact_array_cons]
      simp [ih item List.mem_cons_self, hitems items fun j hj => ih j (List.mem_cons_of_mem _ hj)]
  | @object fields _ ih =>
    have hfields : ∀ fields : List (String × Json), (∀ f ∈ fields, '\n' ∉ compact f.2) →
        '\n' ∉ laterFields fields := by
      intro fields h
      induction fields with
      | nil => simp [laterFields, compactFields]
      | cons f fields ihs =>
        rw [laterFields_cons]
        simp [lineFeed_not_mem_quote, h f List.mem_cons_self,
          ihs fun g hg => h g (List.mem_cons_of_mem _ hg)]
    cases fields with
    | nil => decide
    | cons f fields =>
      rw [compact_ofFields_cons]
      simp [lineFeed_not_mem_quote, ih f List.mem_cons_self,
        hfields fields fun g hg => ih g (List.mem_cons_of_mem _ hg)]

end SignatureInference.Json
