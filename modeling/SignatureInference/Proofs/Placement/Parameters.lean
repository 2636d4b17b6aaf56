import SignatureInference.Placement
import SignatureInference.Proofs.Source.Insertion
import SignatureInference.Proofs.Source.Occurrences
import SignatureInference.Proofs.Text.Lowercase
import SignatureInference.Proofs.Text.Reading

/-! # Parameter lists and insertions

A list of parameters is read from left to right, so that what is put into it changes the text of one
parameter only. In that parameter, words such as `public` may stand in front of the type; a text in
front of the variable that is none of these words is a type.
-/
namespace SignatureInference.Placement

open Text Source

/-! ## Words in front of a parameter -/

def isPromotion (w : List Char) : Bool := promotionWords.contains (String.ofList (lower w))

theorem isAlpha_of_toLower {c : Char} (h : c.toLower.isAlpha = true) : c.isAlpha = true := by
  cases hupper : c.isUpper with
  | true => exact isAlpha_iff.mpr (.inl hupper)
  | false =>
    rw [toLower_of_not_isUpper hupper] at h
    exact h

theorem foldLetter_of_isAlpha {c : Char} (h : c.isAlpha = true) : foldLetter c = c.toLower := by
  have hlt : c.toNat < 0x80 := by
    rw [isAlpha_iff, isUpper_iff, isLower_iff] at h
    omega
  rw [foldLetter, if_neg (by omega), if_neg (by omega)]

theorem map_toLower_of_isPromotion {w : List Char} (h : isPromotion w = true) :
    ∃ p ∈ promotionWords, w.map Char.toLower = p.toList := by
  obtain ⟨p, hp, he⟩ := List.contains_iff_exists_mem_beq.mp h
  have he : lower w = p.toList := by
    rw [← eq_of_beq he, String.toList_ofList]
  have hascii : ∀ p ∈ promotionWords, (p.toList.all fun d => isAscii d && d != 'k') = true := by
    decide
  refine ⟨p, hp, map_toLower_of_lower_eq he fun d hd => ?_⟩
  simpa using List.all_eq_true.mp (hascii p hp) d hd

theorem isAlpha_of_isPromotion {w : List Char} (h : isPromotion w = true) {c : Char} (hc : c ∈ w) :
    c.isAlpha = true := by
  obtain ⟨p, hp, he⟩ := map_toLower_of_isPromotion h
  have hmem : c.toLower ∈ p.toList := he ▸ List.mem_map_of_mem hc
  have halpha : ∀ p ∈ promotionWords, p.toList.all Char.isAlpha = true := by decide
  exact isAlpha_of_toLower (List.all_eq_true.mp (halpha p hp) _ hmem)

theorem exists_cons_of_isPromotion {w : List Char} (h : isPromotion w = true) :
    ∃ c cs, w = c :: cs ∧ beginsKeyword c = false := by
  obtain ⟨p, hp, he⟩ := map_toLower_of_isPromotion h
  have hhead : ∀ p ∈ promotionWords,
      (p.toList.head?.any fun d => !"citefn".toList.contains d) = true := by decide
  have hhead := hhead p hp
  cases w with
  | nil =>
    rw [← he] at hhead
    cases hhead
  | cons c cs =>
    refine ⟨c, cs, rfl, ?_⟩
    rw [← he, List.map_cons, List.head?_cons, Option.any_some, Bool.not_eq_true'] at hhead
    rw [beginsKeyword, foldLetter_of_isAlpha (isAlpha_of_isPromotion h List.mem_cons_self), hhead]

theorem isIdentPart_of_isAlpha {c : Char} (h : c.isAlpha = true) : isIdentPart c = true := by
  simp [isIdentPart, Char.isAlphanum, h]

theorem isWordPart_of_isIdentPart {c : Char} (h : isIdentPart c = true) : isWordPart c = true := by
  simp only [isIdentPart, Char.isAlphanum, Bool.or_eq_true] at h
  simp only [isWordPart, isAlphanumeric, isAlphabetic, isNumeric, Bool.or_eq_true]
  tauto

theorem isWordPart_of_isBlank {c : Char} (h : isBlank c = true) : isWordPart c = false := by
  have hall : ∀ n ∈ blankCodes, isWordPart (Char.ofNat n) = false := by decide +kernel
  simpa using hall _ (toNat_mem_blankCodes h)

theorem isWordPart_of_isStop {s : Char} (h : isStop s = true) : isWordPart s = false := by
  rcases isStop_cases h with rfl | rfl | rfl <;> decide +kernel

/-! ## The type of one parameter -/

theorem fromType?_eq (text : List Char) :
    fromType? text =
      if trimStart text = [] then none
      else if isPromotion ((trimStart text).takeWhile isWordPart) then
        fromType? ((trimStart text).dropWhile isWordPart)
      else some (trimStart text) := by
  rw [fromType?]
  rfl

theorem not_isPromotion_nil : isPromotion [] = false := by decide

theorem fromType?_cons {c : Char} (hblank : isBlank c = false) (hword : isWordPart c = false)
    (s : List Char) : fromType? (c :: s) = some (c :: s) := by
  rw [fromType?_eq, trimStart_cons_of_not_blank hblank, if_neg (by simp),
    List.takeWhile_cons_of_neg (by simp [hword]), if_neg (by simp [not_isPromotion_nil])]

theorem fromType?_trimStart (text : List Char) : fromType? (trimStart text) = fromType? text := by
  rw [fromType?_eq, fromType?_eq text, trimStart_trimStart]

/-- Blanks and words in front of the type or the variable of a parameter. -/
inductive Lead : List Char → Prop
  | nil : Lead []
  | blank {c : Char} {l : List Char} (hc : isBlank c = true) (hl : Lead l) : Lead (c :: l)
  | word {w : List Char} {c : Char} {l : List Char} (hw : isPromotion w = true)
      (hc : isBlank c = true) (hl : Lead l) : Lead (w ++ c :: l)

theorem trimStart_of_isPromotion {w : List Char} (h : isPromotion w = true) (s : List Char) :
    trimStart (w ++ s) = w ++ s := by
  obtain ⟨c, cs, rfl, -⟩ := exists_cons_of_isPromotion h
  refine trimStart_cons_of_not_blank ?_ _
  by_contra hb
  have hpart := isWordPart_of_isIdentPart
    (isIdentPart_of_isAlpha (isAlpha_of_isPromotion h List.mem_cons_self))
  rw [isWordPart_of_isBlank (by simpa using hb)] at hpart
  cases hpart

theorem Lead.of_cons {c : Char} {l : List Char} (h : Lead (c :: l)) (hc : isWordPart c = false) :
    isBlank c = true ∧ Lead l := by
  generalize hcl : c :: l = cl at h
  cases h with
  | nil => cases hcl
  | blank hb hl =>
    obtain ⟨rfl, rfl⟩ := List.cons.inj hcl
    exact ⟨hb, hl⟩
  | @word w d l hw hd hl =>
    obtain ⟨e, es, rfl, -⟩ := exists_cons_of_isPromotion hw
    obtain ⟨rfl, -⟩ := List.cons.inj hcl
    rw [isWordPart_of_isIdentPart
      (isIdentPart_of_isAlpha (isAlpha_of_isPromotion hw List.mem_cons_self))] at hc
    cases hc

/-- Blanks and words in front of the type or the variable of a parameter, where the last word may
touch what follows it. -/
inductive Modifiers : List Char → Prop
  | nil : Modifiers []
  | blank {c : Char} {l : List Char} (hc : isBlank c = true) (hl : Modifiers l) : Modifiers (c :: l)
  | word {w l : List Char} (hw : isPromotion w = true) (hend : ∀ c ∈ l.head?, isWordPart c = false)
      (hl : Modifiers l) : Modifiers (w ++ l)

theorem Modifiers.blanks {b l : List Char} (hb : ∀ c ∈ b, isBlank c = true) (h : Modifiers l) :
    Modifiers (b ++ l) := by
  induction b with
  | nil => exact h
  | cons c b ih =>
    exact .blank (hb c List.mem_cons_self) (ih fun d hd => hb d (List.mem_cons_of_mem _ hd))

theorem Modifiers.exists_word {l : List Char} (h : Modifiers l) {c : Char} (hlast : c ∈ l.getLast?)
    (hc : isBlank c = false) :
    ∃ x w, l = x ++ w ∧ isPromotion w = true ∧ Modifiers x ∧
      ∀ d ∈ x.getLast?, isWordPart d = false := by
  induction h with
  | nil => cases hlast
  | @blank d l hd hl ih =>
    cases l with
    | nil =>
      obtain rfl : d = c := by simpa using hlast
      rw [hc] at hd
      cases hd
    | cons e l =>
      obtain ⟨x, w, hx, hw, hmodifiers, hend⟩ := ih (by simpa [List.getLast?_cons_cons] using hlast)
      refine ⟨d :: x, w, by rw [hx]; rfl, hw, .blank hd hmodifiers, ?_⟩
      cases x with
      | nil => simpa using isWordPart_of_isBlank hd
      | cons f x => simpa [List.getLast?_cons_cons] using hend
  | @word v l hv hend hl ih =>
    cases l with
    | nil => exact ⟨[], v, by simp, hv, .nil, by simp⟩
    | cons e l =>
      rw [List.getLast?_append_of_ne_nil _ (List.cons_ne_nil e l)] at hlast
      obtain ⟨x, w, hx, hw, hmodifiers, hend'⟩ := ih hlast
      cases x with
      | nil =>
        -- the two words would touch
        have he := hend e rfl
        have hmem : e ∈ w := by rw [List.nil_append] at hx; simp [← hx]
        rw [isWordPart_of_isIdentPart (isIdentPart_of_isAlpha (isAlpha_of_isPromotion hw hmem))]
          at he
        cases he
      | cons f x =>
        obtain ⟨rfl, rfl⟩ := List.cons.inj hx
        refine ⟨v ++ e :: x, w, by simp, hw, .word hv (by simpa using hend) hmodifiers, ?_⟩
        rwa [List.getLast?_append_of_ne_nil _ (List.cons_ne_nil e x)]

/-- Words and blanks are passed over, unless the last word goes on. -/
theorem fromType?_modifiers {l s : List Char} (h : Modifiers l)
    (hapart : ∀ d ∈ l.getLast?, isWordPart d = true → ∀ c ∈ s.head?, isWordPart c = false) :
    fromType? (l ++ s) = fromType? s := by
  induction h with
  | nil => rfl
  | @blank c l hc hl ih =>
    rw [← fromType?_trimStart, List.cons_append, trimStart, List.dropWhile_cons_of_pos hc]
    refine (fromType?_trimStart _).trans (ih fun d hd => hapart d ?_)
    rw [List.getLast?_cons, Option.mem_def.mp hd]
    rfl
  | @word w l hw hend hl ih =>
    have hpart : ∀ d ∈ w, isWordPart d = true := fun d hd =>
      isWordPart_of_isIdentPart (isIdentPart_of_isAlpha (isAlpha_of_isPromotion hw hd))
    have hne : w ≠ [] := by
      rintro rfl
      cases hw
    have hstop : ∀ c ∈ (l ++ s).head?, isWordPart c = false := by
      cases l with
      | nil =>
        rw [List.append_nil] at hapart
        exact hapart _ (List.getLast?_eq_some_getLast hne) (hpart _ (List.getLast_mem hne))
      | cons c l => simpa using hend
    have htake : (w ++ (l ++ s)).takeWhile isWordPart = w := by
      rw [List.takeWhile_append_of_pos hpart]
      cases hls : l ++ s with
      | nil => simp
      | cons c z => simp [hstop c (by simp [hls])]
    have hdrop : (w ++ (l ++ s)).dropWhile isWordPart = l ++ s := by
      rw [List.dropWhile_append_of_pos hpart]
      cases hls : l ++ s with
      | nil => rfl
      | cons c z => simp [hstop c (by simp [hls])]
    rw [fromType?_eq, List.append_assoc, trimStart_of_isPromotion hw, htake, hdrop,
      if_neg (by simp [hne]), if_pos hw]
    cases l with
    | nil => rfl
    | cons c l =>
      exact ih fun d hd =>
        hapart d (by rwa [List.getLast?_append_of_ne_nil _ (List.cons_ne_nil c l)])

theorem Lead.modifiers {l : List Char} (h : Lead l) : Modifiers l := by
  induction h with
  | nil => exact .nil
  | blank hc hl ih => exact .blank hc ih
  | word hw hc hl ih => exact .word hw (by simpa using isWordPart_of_isBlank hc) (.blank hc ih)

theorem Lead.isBlank_getLast {l : List Char} (h : Lead l) : ∀ d ∈ l.getLast?, isBlank d = true := by
  have hcons : ∀ {c : Char} {l : List Char}, isBlank c = true →
    (∀ d ∈ l.getLast?, isBlank d = true) →
      ∀ d ∈ (c :: l).getLast?, isBlank d = true := by
    intro c l hc hl d hd
    rw [List.getLast?_cons] at hd
    cases hlast : l.getLast? with
    | none =>
      obtain rfl : c = d := by simpa [hlast] using hd
      exact hc
    | some e =>
      obtain rfl : e = d := by simpa [hlast] using hd
      exact hl e hlast
  induction h with
  | nil => simp
  | blank hc hl ih => exact hcons hc ih
  | word hw hc hl ih =>
    intro d hd
    rw [List.getLast?_append_of_ne_nil _ (List.cons_ne_nil _ _)] at hd
    exact hcons hc ih d hd

theorem fromType?_lead {l : List Char} (h : Lead l) (s : List Char) :
    fromType? (l ++ s) = fromType? s := by
  refine fromType?_modifiers h.modifiers fun d hd hpart => ?_
  rw [isWordPart_of_isBlank (h.isBlank_getLast d hd)] at hpart
  cases hpart

theorem Modifiers.lead {l : List Char} (h : Modifiers l)
    (hlast : ∀ c ∈ l.getLast?, isIdentPart c = false) :
    Lead l := by
  induction h with
  | nil => exact .nil
  | @blank c l hc hl ih =>
    refine .blank hc (ih fun d hd => hlast d ?_)
    rw [List.getLast?_cons, Option.mem_def.mp hd]
    rfl
  | @word w l hw hend hl ih =>
    cases l with
    | nil =>
      -- the word would touch what follows
      obtain ⟨c, cs, rfl, -⟩ := exists_cons_of_isPromotion hw
      have hne : c :: cs ≠ [] := List.cons_ne_nil c cs
      have hlast := hlast ((c :: cs).getLast hne) (by
        rw [List.append_nil, List.getLast?_eq_some_getLast hne]
        rfl)
      rw [isIdentPart_of_isAlpha (isAlpha_of_isPromotion hw (List.getLast_mem hne))] at hlast
      cases hlast
    | cons c l =>
      obtain ⟨hb, hl⟩ := (ih fun d hd => hlast d (by simpa using hd)).of_cons (hend c rfl)
      exact .word hw hb hl

theorem exists_lead {text rest : List Char} (h : fromType? text = some rest) :
    ∃ l, text = l ++ rest ∧ rest ≠ [] ∧ Modifiers l := by
  induction text using fromType?.induct with
  | case1 text trimmed hnil =>
    rw [fromType?_eq, if_pos hnil] at h
    cases h
  | case2 text trimmed hne hword ih =>
    have hword : isPromotion (trimmed.takeWhile isWordPart) = true := hword
    rw [fromType?_eq, if_neg hne, if_pos hword] at h
    obtain ⟨l, hl, hrest, hmodifiers⟩ := ih h
    obtain ⟨b, hb, hblank⟩ := exists_append_trimStart text
    have hsplit : text = b ++ (trimmed.takeWhile isWordPart ++ l) ++ rest := by
      rw [List.append_assoc, List.append_assoc, ← hl, List.takeWhile_append_dropWhile, ← hb]
    refine ⟨_, hsplit, hrest, .blanks hblank (.word hword (fun c hc => ?_) hmodifiers)⟩
    have hend := List.head?_dropWhile_not isWordPart trimmed
    obtain ⟨l, rfl⟩ := List.head?_eq_some_iff.mp hc
    rw [hl] at hend
    simpa using hend
  | case3 text trimmed hne hword =>
    have hword : ¬isPromotion (trimmed.takeWhile isWordPart) = true := hword
    rw [fromType?_eq, if_neg hne, if_neg hword] at h
    cases h
    obtain ⟨b, hb, hblank⟩ := exists_append_trimStart text
    refine ⟨b, hb, hne, ?_⟩
    simpa using Modifiers.blanks hblank .nil

/-- A parameter is read up to a stop without regard to what follows. -/
theorem exists_fromType?_stop {s : Char} (hs : isStop s = true) (x : List Char) :
    ∃ l r, x = l ++ r ∧ ∀ z, fromType? (x ++ s :: z) = some (r ++ s :: z) := by
  have hblank := isBlank_of_isStop hs
  have hpart := isWordPart_of_isStop hs
  induction x using fromType?.induct with
  | case1 x trimmed hnil =>
    refine ⟨x, [], by simp, fun z => ?_⟩
    rw [← fromType?_trimStart, trimStart_stop hblank, show trimStart x = [] from hnil]
    exact fromType?_cons hblank hpart z
  | case2 x trimmed hne hword ih =>
    have hword : isPromotion (trimmed.takeWhile isWordPart) = true := hword
    obtain ⟨l, r, hl, hr⟩ := ih
    obtain ⟨b, hb, -⟩ := exists_append_trimStart x
    have hsplit : x = b ++ (trimmed.takeWhile isWordPart ++ l) ++ r := by
      rw [List.append_assoc, List.append_assoc, ← hl, List.takeWhile_append_dropWhile, ← hb]
    refine ⟨_, r, hsplit, fun z => ?_⟩
    rw [fromType?_eq, trimStart_stop hblank, takeWhile_stop hpart, dropWhile_stop hpart,
      if_neg (by simp), if_pos hword, hr]
  | case3 x trimmed hne hword =>
    have hword : ¬isPromotion (trimmed.takeWhile isWordPart) = true := hword
    obtain ⟨b, hb, -⟩ := exists_append_trimStart x
    refine ⟨b, _, hb, fun z => ?_⟩
    rw [fromType?_eq, trimStart_stop hblank, takeWhile_stop hpart, if_neg (by simp), if_neg hword]

/-! ## The variable of one parameter -/

def beginsVariable (rest : List Char) : Bool :=
  startsWith ['$'] rest || startsWith ['&'] rest || startsWith "...".toList rest

theorem beginsVariable_iff {rest : List Char} :
    beginsVariable rest = true ↔ ∃ v ∈ [['$'], ['&'], ['.', '.', '.']], ∃ z, rest = v ++ z := by
  have hstarts (v : List Char) : startsWith v rest = true ↔ ∃ z, rest = v ++ z := by
    rw [startsWith, Option.isSome_iff_exists]
    constructor
    · rintro ⟨z, hz⟩
      exact ⟨z, eq_append_of_dropHead? hz⟩
    · rintro ⟨z, rfl⟩
      exact ⟨z, dropHead?_append v z⟩
  have hdots : "...".toList = ['.', '.', '.'] := rfl
  simp only [beginsVariable, hdots, Bool.or_eq_true, hstarts, List.mem_cons,
    List.not_mem_nil, or_false, exists_eq_or_imp, exists_eq_left, or_assoc]

def variableOffset (text : List Char) : Except Refusal Nat :=
  match fromType? text with
  | none => .error .noParameter
  | some rest =>
    if beginsVariable rest then .ok (byteLength text - byteLength rest)
    else .error .parameterHasType

theorem parameterOffset_eq (start : Nat) (params : List Char) (index : Nat) :
    parameterOffset start params index =
      match (parameterTexts 0 params)[index]? with
      | none => .error .noParameter
      | some text =>
        (variableOffset text).map fun n =>
          start + byteLength (((parameterTexts 0 params).take index).flatMap (· ++ [','])) + n := by
  unfold parameterOffset variableOffset beginsVariable
  simp only
  cases (parameterTexts 0 params)[index]? with
  | none => rfl
  | some text =>
    simp only [Option.bind_some]
    cases fromType? text with
    | none => rfl
    | some rest =>
      simp only [Option.map_some]
      split <;> rfl

theorem beginsVariable_stop {s : Char} (hs : isStop s = true) (r z : List Char) :
    beginsVariable (r ++ s :: z) = beginsVariable r := by
  unfold beginsVariable
  rcases isStop_cases hs with rfl | rfl | rfl <;>
    rw [startsWith_stop (by decide), startsWith_stop (by decide), startsWith_stop (by decide)]

theorem exists_variableOffset_stop {s : Char} (hs : isStop s = true) (x : List Char) :
    ∃ r, (∀ z, variableOffset (x ++ s :: z) = r) ∧ ∀ n, r = .ok n → n ≤ byteLength x := by
  obtain ⟨l, r, rfl, hr⟩ := exists_fromType?_stop hs x
  refine ⟨if beginsVariable r then .ok (byteLength l) else .error .parameterHasType,
    fun z => ?_, ?_⟩
  · rw [variableOffset, hr]
    simp only [beginsVariable_stop hs]
    congr 2
    simp only [byteLength_append]
    omega
  · intro n hn
    split at hn
    · cases hn
      simp
    · cases hn

theorem variableOffset_lead {l : List Char} (h : Lead l) {c : Char} (hblank : isBlank c = false)
    (hword : isWordPart c = false) (s : List Char) :
    variableOffset (l ++ c :: s) =
      if beginsVariable (c :: s) then .ok (byteLength l) else .error .parameterHasType := by
  rw [variableOffset, fromType?_lead h, fromType?_cons hblank hword]
  simp only
  congr 2
  rw [byteLength_append, Nat.add_sub_cancel]

theorem variableOffset_le {text : List Char} {n : Nat} (h : variableOffset text = .ok n) :
    n ≤ byteLength text := by
  unfold variableOffset at h
  split at h
  · cases h
  · split at h
    · cases h
      exact Nat.sub_le _ _
    · cases h

theorem variableOffset_lead_error {l text : List Char} {r : Refusal} (hl : Lead l)
    (h : variableOffset text = .error r) : variableOffset (l ++ text) = .error r := by
  unfold variableOffset at h ⊢
  rw [fromType?_lead hl]
  split at h
  · exact h
  · split at h
    · cases h
    · next hne => simpa [hne] using h

/-! ## All parameters -/

/-- Puts a text in front of the first of the texts, if there is one. -/
def glue (x : List Char) : List (List Char) → List (List Char)
  | [] => []
  | text :: texts => (x ++ text) :: texts

theorem parameterTexts_cons {c : Char} {depth : Int} (h : (c = ',' && depth = 0) = false)
    (cs : List Char) :
    parameterTexts depth (c :: cs) = glue [c] (parameterTexts (depthAfter depth c) cs) := by
  rw [parameterTexts, if_neg (by simp [h])]
  cases parameterTexts (depthAfter depth c) cs <;> rfl

theorem glue_glue (x y : List Char) (texts : List (List Char)) :
    glue x (glue y texts) = glue (x ++ y) texts := by
  cases texts with
  | nil => rfl
  | cons text texts => simp [glue]

/-- Reading parameters from left to right: the parameters that are complete, and the beginning of
the one that goes on. -/
theorem exists_parameterTexts_append (depth : Int) (u : List Char) :
    ∃ pre x depth', u = pre.flatMap (· ++ [',']) ++ x ∧
      ∀ v, parameterTexts depth (u ++ v) = pre ++ glue x (parameterTexts depth' v) := by
  induction u generalizing depth with
  | nil =>
    refine ⟨[], [], depth, rfl, fun v => ?_⟩
    cases h : parameterTexts depth v <;> simp [glue, h]
  | cons c u ih =>
    by_cases hc : (c = ',' && depth = 0) = true
    · obtain ⟨pre, x, depth', rfl, hv⟩ := ih depth
      have hcomma : c = ',' := by simp at hc; exact hc.1
      refine ⟨[] :: pre, x, depth', by simp [hcomma], fun v => ?_⟩
      rw [List.cons_append, parameterTexts, if_pos hc, hv]
      rfl
    · obtain ⟨pre, x, depth', rfl, hv⟩ := ih (depthAfter depth c)
      have hstep := fun v => parameterTexts_cons (by simpa using hc)
        (pre.flatMap (· ++ [',']) ++ x ++ v)
      cases pre with
      | nil =>
        refine ⟨[], c :: x, depth', by simp, fun v => ?_⟩
        rw [List.cons_append, hstep, hv, List.nil_append, glue_glue]
        rfl
      | cons text pre =>
        refine ⟨(c :: text) :: pre, x, depth', by simp, fun v => ?_⟩
        rw [List.cons_append, hstep, hv]
        rfl

/-- The texts of the parameters follow each other in the list, with commas between them. -/
theorem exists_append_of_parameterTexts {depth : Int} {cs text : List Char} {index : Nat}
    (h : (parameterTexts depth cs)[index]? = some text) :
    ∃ rest, cs = ((parameterTexts depth cs).take index).flatMap (· ++ [',']) ++ (text ++ rest) ∧
      ∀ c ∈ rest.head?, c = ',' := by
  induction cs generalizing depth index text with
  | nil =>
    rw [parameterTexts] at h ⊢
    split at h
    · cases index with
      | zero =>
        cases h
        exact ⟨[], rfl, by simp⟩
      | succ index => simp at h
    · simp at h
  | cons c cs ih =>
    by_cases hc : (c = ',' && depth = 0) = true
    · have hcomma : c = ',' := by simp at hc; exact hc.1
      rw [parameterTexts, if_pos hc] at h ⊢
      cases index with
      | zero =>
        cases h
        exact ⟨c :: cs, rfl, by simpa using hcomma⟩
      | succ index =>
        obtain ⟨rest, hrest, hhead⟩ := ih (by simpa using h)
        refine ⟨rest, ?_, hhead⟩
        rw [List.take_succ_cons, List.flatMap_cons, List.append_assoc, ← hrest, hcomma]
        rfl
    · rw [parameterTexts_cons (by simpa using hc)] at h ⊢
      have ih := @ih (depthAfter depth c)
      cases htexts : parameterTexts (depthAfter depth c) cs with
      | nil => simp [htexts, glue] at h
      | cons first texts =>
        rw [htexts] at h ih
        cases index with
        | zero =>
          obtain ⟨rest, hrest, hhead⟩ := @ih first 0 rfl
          cases h
          exact ⟨rest, by rw [hrest]; rfl, hhead⟩
        | succ index =>
          obtain ⟨rest, hrest, hhead⟩ := @ih text (index + 1) h
          refine ⟨rest, ?_, hhead⟩
          simp only [glue, List.take_succ_cons, List.flatMap_cons, List.append_assoc] at hrest ⊢
          rw [hrest]
          rfl

theorem parameterOffset_bounds {start index n : Nat} {params : List Char}
    (h : parameterOffset start params index = .ok n) :
    start ≤ n ∧ n ≤ start + byteLength params := by
  rw [parameterOffset_eq] at h
  split at h
  · cases h
  · next text htext =>
    obtain ⟨rest, hrest, -⟩ := exists_append_of_parameterTexts htext
    have hlen := congrArg byteLength hrest
    simp only [byteLength_append] at hlen
    cases hn : variableOffset text with
    | error r =>
      rw [hn] at h
      cases h
    | ok k =>
      have hk : k ≤ byteLength text := variableOffset_le hn
      simp only [hn, Except.map, Except.ok.injEq] at h
      omega

theorem parameterOffset_add (start k : Nat) (params : List Char) (index : Nat) :
    parameterOffset (start + k) params index =
      (parameterOffset start params index).map (· + k) := by
  rw [parameterOffset_eq, parameterOffset_eq]
  cases (parameterTexts 0 params)[index]? with
  | none => rfl
  | some text =>
    simp only
    cases variableOffset text with
    | error r => rfl
    | ok n =>
      simp only [Except.map]
      congr 1
      omega

end SignatureInference.Placement
