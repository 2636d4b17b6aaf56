import SignatureInference.Proofs.Text.Reading
import SignatureInference.Text.Lowercase

/-! # Lower case and ASCII

The lower-case form of an ASCII text is taken letter by letter. Apart from the Kelvin sign and the
capital I with a dot, only ASCII letters have ASCII letters in their lower-case form. What the form
of a character depends on besides the character is only whether a capital sigma ends a word.
-/
namespace SignatureInference.Text

def isAscii (c : Char) : Bool := c.toNat < 0x80

theorem lowercaseRows_images : ∀ r ∈ lowercaseRows,
    (0x80 ≤ r.2.2.2 ∨ r = (0x212A, 0x212A, 1, 0x6B)) ∧
      (r.2.2.2 + (r.2.1 - r.1) < 0xD800 ∨ 0xDFFF < r.2.2.2 ∧
        r.2.2.2 + (r.2.1 - r.1) < 0x110000) := by
  decide +kernel

theorem isLower_toLower {c : Char} (h : c.isUpper = true) : c.toLower.isLower = true := by
  have hrange := isUpper_iff.mp h
  have hall : ∀ n ∈ List.range' 65 26, (Char.ofNat n).toLower.isLower = true := by decide
  simpa using hall c.toNat (List.mem_range'_1.mpr (by omega))

theorem lowerChar_of_isAscii {c : Char} (h : isAscii c = true) : lowerChar c = [c.toLower] := by
  have : c.toNat < 0x80 := by simpa [isAscii] using h
  rw [lowerChar, if_pos this]

/-- The characters above ASCII become characters above ASCII, except for the Kelvin sign. -/
theorem image_of_lowercaseRow {c : Char} {r : Nat × Nat × Nat × Nat}
    (hr : lowercaseRows.find? (fun r =>
      r.1 ≤ c.toNat && c.toNat ≤ r.2.1 && (c.toNat - r.1) % r.2.2.1 == 0) = some r) :
    isAscii (Char.ofNat (r.2.2.2 + (c.toNat - r.1))) = false ∨
      Char.ofNat (r.2.2.2 + (c.toNat - r.1)) = 'k' := by
  have hfound := List.find?_some hr
  simp only [Bool.and_eq_true, decide_eq_true_eq] at hfound
  obtain ⟨himage, hvalid⟩ := lowercaseRows_images r (List.mem_of_find?_eq_some hr)
  rcases himage with himage | rfl
  · left
    have hv : (r.2.2.2 + (c.toNat - r.1)).isValidChar := by
      unfold Nat.isValidChar
      omega
    have hn : (Char.ofNat (r.2.2.2 + (c.toNat - r.1))).toNat = r.2.2.2 + (c.toNat - r.1) := by
      rw [Char.ofNat, dif_pos hv]
      rfl
    simp only [isAscii, hn, decide_eq_false_iff_not]
    omega
  · right
    have hle : 0x212A ≤ c.toNat := hfound.1.1
    have hge : c.toNat ≤ 0x212A := hfound.1.2
    simp [show c.toNat = 0x212A by omega]

theorem mem_lowerChar_not_ascii {c d : Char} (h : isAscii c = false) (hd : d ∈ lowerChar c) :
    isAscii d = false ∨ d = 'k' ∨ d = 'i' := by
  have hc : ¬ c.toNat < 0x80 := by simpa [isAscii] using h
  unfold lowerChar at hd
  rw [if_neg hc] at hd
  split at hd
  · rcases List.mem_pair.mp hd with rfl | rfl
    · exact .inr (.inr rfl)
    · exact .inl (by decide)
  · split at hd
    · next r hr =>
      rw [List.mem_singleton.mp hd]
      exact (image_of_lowercaseRow hr).imp_right .inl
    · rw [List.mem_singleton.mp hd]
      exact .inl h

theorem lowerChar_ne_nil (c : Char) : lowerChar c ≠ [] := by
  unfold lowerChar
  split
  · simp
  · split
    · simp
    · split <;> simp

theorem lower_ne_nil {cs : List Char} (h : cs ≠ []) : lower cs ≠ [] := by
  cases cs with
  | nil => exact absurd rfl h
  | cons c cs =>
    rw [lower, lowerAfter]
    intro hnil
    have himage := (List.append_eq_nil_iff.mp hnil).1
    split at himage
    · split at himage <;> cases himage
    · exact lowerChar_ne_nil c himage

/-- The lower-case form of a character is its small letter in ASCII, or else has a character in it
that is not in ASCII or is the letter `k`, with nothing but perhaps an `i` in front of it. -/
theorem lowerAfter_cons_cases (before : List Char) (c : Char) (cs : List Char) :
    (isAscii c = true ∧ lowerAfter before (c :: cs) = c.toLower :: lowerAfter (c :: before) cs) ∨
      ∃ d, ¬(isAscii d = true ∧ d ≠ 'k') ∧
        (lowerAfter before (c :: cs) = d :: lowerAfter (c :: before) cs ∨
          lowerAfter before (c :: cs) = 'i' :: d :: lowerAfter (c :: before) cs) := by
  rw [lowerAfter]
  cases hc : isAscii c with
  | true =>
    have hsigma : c ≠ 'Σ' := by
      rintro rfl
      exact absurd hc (by decide)
    left
    rw [if_neg hsigma, lowerChar_of_isAscii hc]
    exact ⟨rfl, rfl⟩
  | false =>
    right
    have hcode : ¬c.toNat < 0x80 := by simpa [isAscii] using hc
    split
    · split
      · exact ⟨'ς', by decide, .inl rfl⟩
      · exact ⟨'σ', by decide, .inl rfl⟩
    · unfold lowerChar
      rw [if_neg hcode]
      split
      · exact ⟨Char.ofNat 0x307, by decide, .inr rfl⟩
      · split
        · next r hr =>
          refine ⟨_, ?_, .inl rfl⟩
          rintro ⟨hascii, hk⟩
          rcases image_of_lowercaseRow hr with himage | himage
          · rw [hascii] at himage
            cases himage
          · exact hk himage
        · exact ⟨c, by simp [hc], .inl rfl⟩

theorem lowerAfter_append_of_isAscii {cs : List Char} (h : ∀ c ∈ cs, isAscii c = true)
    (before z : List Char) :
    lowerAfter before (cs ++ z) = cs.map Char.toLower ++ lowerAfter (cs.reverse ++ before) z := by
  induction cs generalizing before with
  | nil => rfl
  | cons c cs ih =>
    have hc := h c List.mem_cons_self
    have hsigma : c ≠ 'Σ' := by
      rintro rfl
      exact absurd hc (by decide)
    rw [List.cons_append, lowerAfter, if_neg hsigma, lowerChar_of_isAscii hc,
      ih fun d hd => h d (List.mem_cons_of_mem _ hd)]
    simp

theorem lowerAfter_of_isAscii {cs : List Char} (h : ∀ c ∈ cs, isAscii c = true)
    (before : List Char) :
    lowerAfter before cs = cs.map Char.toLower := by
  simpa [lowerAfter] using lowerAfter_append_of_isAscii h before []

theorem lower_of_isAscii {cs : List Char} (h : ∀ c ∈ cs, isAscii c = true) :
    lower cs = cs.map Char.toLower :=
  lowerAfter_of_isAscii h []

/-- Only an ASCII text has a lower-case form in ASCII that is free of the letter `k`. -/
theorem isAscii_of_lowerAfter {cs before : List Char}
    (h : ∀ d ∈ lowerAfter before cs, isAscii d = true ∧ d ≠ 'k') : ∀ c ∈ cs, isAscii c = true := by
  induction cs generalizing before with
  | nil => simp
  | cons c cs ih =>
    rcases lowerAfter_cons_cases before c cs with ⟨hc, heq⟩ | ⟨d, hd, heq | heq⟩
    · rw [heq] at h
      exact List.forall_mem_cons.mpr ⟨hc, ih fun e he => h e (List.mem_cons_of_mem _ he)⟩
    · exact absurd (h d (by simp [heq])) hd
    · exact absurd (h d (by simp [heq])) hd

theorem map_toLower_of_lower_eq {cs word : List Char} (h : lower cs = word)
    (hword : ∀ d ∈ word, isAscii d = true ∧ d ≠ 'k') : cs.map Char.toLower = word := by
  subst h
  exact (lower_of_isAscii (isAscii_of_lowerAfter hword)).symm

theorem isAscii_of_toLower {c : Char} (h : isAscii c.toLower = true) : isAscii c = true := by
  cases hupper : c.isUpper with
  | true =>
    have hletter := isUpper_iff.mp hupper
    simp only [isAscii, decide_eq_true_eq]
    omega
  | false =>
    rw [toLower_of_not_isUpper hupper] at h
    exact h

/-- A word of small ASCII letters other than `k` is matched in any case of ASCII letters only. -/
theorem lowerString_eq_iff {name word : String}
    (hword : word.toList.all (fun d => isAscii d && d != 'k' && d.toLower == d) = true) :
    lowerString name = word ↔ sameIgnoringAsciiCase name word = true := by
  have hletters : ∀ d ∈ word.toList, (isAscii d = true ∧ d ≠ 'k') ∧ d.toLower = d := by
    simpa using hword
  have hsmall : word.toList.map Char.toLower = word.toList := by
    rw [List.map_congr_left fun d hd => (hletters d hd).2, List.map_id']
  rw [sameIgnoringAsciiCase, beq_iff_eq, hsmall, lowerString, onString, ← String.toList_inj,
    String.toList_ofList]
  constructor
  · exact fun h => map_toLower_of_lower_eq h fun d hd => (hletters d hd).1
  · intro h
    rw [← h]
    refine lower_of_isAscii fun c hc => isAscii_of_toLower ?_
    exact (hletters _ (h ▸ List.mem_map_of_mem hc)).1.1

theorem mem_of_mem_lowerAfter {cs before : List Char} {d : Char} (hd : d ∈ lowerAfter before cs)
    (hascii : isAscii d = true) (hletter : d.isAlpha = false) : d ∈ cs := by
  induction cs generalizing before with
  | nil => cases hd
  | cons c cs ih =>
    rw [lowerAfter] at hd
    rcases List.mem_append.mp hd with hd | hd
    · have hplain : d ∈ lowerChar c := by
        split at hd
        · have hsigma : d = 'ς' ∨ d = 'σ' := by
            split at hd
            · exact .inl (List.mem_singleton.mp hd)
            · exact .inr (List.mem_singleton.mp hd)
          rcases hsigma with rfl | rfl
          · exact absurd hascii (by decide)
          · exact absurd hascii (by decide)
        · exact hd
      cases hc : isAscii c with
      | false =>
        rcases mem_lowerChar_not_ascii hc hplain with hnot | rfl | rfl
        · rw [hascii] at hnot
          cases hnot
        · exact absurd hletter (by decide)
        · exact absurd hletter (by decide)
      | true =>
        rw [lowerChar_of_isAscii hc, List.mem_singleton] at hplain
        have hupper : c.isUpper = false := by
          by_contra hupper
          have hsmall : d.isAlpha = true := by
            rw [hplain, isAlpha_iff]
            exact .inr (isLower_toLower (by simpa using hupper))
          rw [hletter] at hsmall
          cases hsmall
        rw [hplain, toLower_of_not_isUpper hupper]
        exact List.mem_cons_self
    · exact List.mem_cons_of_mem _ (ih hd)

theorem mem_lowerAfter {cs : List Char} {d : Char} (hd : d ∈ cs) (hascii : isAscii d = true)
    (hletter : d.isUpper = false) (before : List Char) : d ∈ lowerAfter before cs := by
  induction cs generalizing before with
  | nil => cases hd
  | cons c cs ih =>
    rw [lowerAfter]
    rcases List.mem_cons.mp hd with rfl | hd
    · have hsigma : d ≠ 'Σ' := by
        rintro rfl
        exact absurd hascii (by decide)
      rw [if_neg hsigma, lowerChar_of_isAscii hascii, toLower_of_not_isUpper hletter]
      exact List.mem_cons_self
    · exact List.mem_append_right _ (ih hd _)

/-! ## Words in the lower-case form -/

section

variable {word cs before : List Char}

/-- A word that the lower-case form of a text begins with is in lower case what the text begins
with. The last letter of the word matters because the capital I with a dot becomes an `i` and a
dot. -/
theorem prefix_map_of_lowerAfter (hword : ∀ d ∈ word, isAscii d = true ∧ d ≠ 'k')
    (hlast : word.getLast? ≠ some 'i') (h : word <+: lowerAfter before cs) :
    word <+: cs.map Char.toLower := by
  induction word generalizing before cs with
  | nil => exact List.nil_prefix
  | cons d word ih =>
    have hd := hword d List.mem_cons_self
    have hrest : ∀ e ∈ word, isAscii e = true ∧ e ≠ 'k' :=
      fun e he => hword e (List.mem_cons_of_mem _ he)
    cases cs with
    | nil => cases List.prefix_nil.mp h
    | cons c cs =>
      rcases lowerAfter_cons_cases before c cs with ⟨-, heq⟩ | ⟨e, he, heq | heq⟩
      · rw [heq, List.cons_prefix_cons] at h
        have hend : word.getLast? ≠ some 'i' := by
          cases word with
          | nil => simp
          | cons e word => rwa [List.getLast?_cons_cons] at hlast
        exact List.cons_prefix_cons.mpr ⟨h.1, ih hrest hend h.2⟩
      · rw [heq, List.cons_prefix_cons] at h
        exact absurd (h.1 ▸ hd) he
      · -- behind the `i` the word would have to go on with the dot
        rw [heq, List.cons_prefix_cons] at h
        cases word with
        | nil => exact absurd (by rw [h.1]; rfl) hlast
        | cons next word =>
          have hnext := (List.cons_prefix_cons.mp h.2).1
          exact absurd (hnext ▸ hrest next List.mem_cons_self) he

/-- A word that stands in the lower-case form of a text stands in the text, if the case of ASCII
letters does not count. -/
theorem infix_map_of_lowerAfter (hword : ∀ d ∈ word, isAscii d = true ∧ d ≠ 'k')
    (hlast : word.getLast? ≠ some 'i') (h : word <:+: lowerAfter before cs) :
    word <:+: cs.map Char.toLower := by
  induction cs generalizing before with
  | nil => exact h
  | cons c cs ih =>
    have front : word <+: lowerAfter before (c :: cs) → word <:+: (c :: cs).map Char.toLower :=
      fun hfront => (prefix_map_of_lowerAfter hword hlast hfront).isInfix
    have later : word <:+: lowerAfter (c :: before) cs → word <:+: (c :: cs).map Char.toLower :=
      fun hlater => List.infix_cons (ih hlater)
    rcases lowerAfter_cons_cases before c cs with ⟨-, heq⟩ | ⟨e, he, heq | heq⟩
    · rw [heq] at h front
      exact (List.infix_cons_iff.mp h).elim front later
    · rw [heq] at h front
      exact (List.infix_cons_iff.mp h).elim front later
    · rw [heq] at h front
      rcases List.infix_cons_iff.mp h with hfront | h
      · exact front hfront
      · rcases List.infix_cons_iff.mp h with hdot | hlater
        · cases word with
          | nil => exact List.nil_infix
          | cons d word =>
            have hfirst := (List.cons_prefix_cons.mp hdot).1
            exact absurd (hfirst ▸ hword d List.mem_cons_self) he
        · exact later hlater

end

/-! ## Ends of texts -/

theorem endsWith_iff {w cs : List Char} : endsWith w cs = true ↔ w <:+ cs := by
  unfold endsWith startsWith
  rw [Option.isSome_iff_exists, ← List.reverse_prefix]
  constructor
  · rintro ⟨rest, h⟩
    exact ⟨rest, (eq_append_of_dropHead? h).symm⟩
  · rintro ⟨rest, h⟩
    exact ⟨rest, h ▸ dropHead?_append _ _⟩

theorem endsWith_stop {w : List Char} {s : Char} (hs : s ∉ w) (u z : List Char) :
    endsWith w (u ++ s :: z) = endsWith w z := by
  rw [Bool.eq_iff_iff, endsWith_iff, endsWith_iff]
  constructor
  · intro h
    rcases List.suffix_or_suffix_of_suffix h (List.suffix_append u (s :: z)) with hw | hw
    · rcases List.suffix_cons_iff.mp hw with rfl | hw
      · exact absurd List.mem_cons_self hs
      · exact hw
    · exact absurd (hw.subset List.mem_cons_self) hs
  · intro h
    exact h.trans ((List.suffix_cons s z).trans (List.suffix_append u _))

/-- The two forms of the small sigma taken for one. -/
def sameSigma (c : Char) : Char := if c = 'ς' then 'σ' else c

theorem map_sameSigma_sigma (a b : Bool) :
    (if a = true then ['ς'] else ['σ']).map sameSigma =
      (if b = true then ['ς'] else ['σ']).map sameSigma := by
  revert a b
  decide

theorem map_sameSigma_lowerAfter (before before' cs : List Char) :
    (lowerAfter before cs).map sameSigma = (lowerAfter before' cs).map sameSigma := by
  induction cs generalizing before before' with
  | nil => rfl
  | cons c cs ih =>
    rw [lowerAfter, lowerAfter, List.map_append, List.map_append, ih (c :: before) (c :: before')]
    congr 1
    split
    · exact map_sameSigma_sigma _ _
    · rfl

theorem endsWith_map_sameSigma {w : List Char} (hw : 'σ' ∉ w ∧ 'ς' ∉ w) (cs : List Char) :
    endsWith w (cs.map sameSigma) = endsWith w cs := by
  have hfix : w.map sameSigma = w := by
    rw [List.map_congr_left (g := id), List.map_id]
    intro c hc
    have hne : c ≠ 'ς' := fun he => hw.2 (he ▸ hc)
    exact if_neg hne
  rw [Bool.eq_iff_iff, endsWith_iff, endsWith_iff]
  constructor
  · rintro ⟨u, hu⟩
    obtain ⟨x, y, rfl, -, hy⟩ := List.append_eq_map_iff.mp hu
    refine ⟨x, ?_⟩
    rw [← hy, ← List.map_id y, List.map_map]
    congr 1
    refine List.map_congr_left fun c hc => ?_
    have hmem : sameSigma c ∈ w := hy ▸ List.mem_map_of_mem hc
    by_cases h : c = 'ς'
    · rw [sameSigma, if_pos h] at hmem
      exact absurd hmem hw.1
    · simp [sameSigma, h]
  · rintro ⟨u, rfl⟩
    exact ⟨u.map sameSigma, by rw [List.map_append, hfix]⟩

theorem byteLength_map_sameSigma (cs : List Char) :
    byteLength (cs.map sameSigma) = byteLength cs := by
  induction cs with
  | nil => rfl
  | cons c cs ih =>
    have hsize : (sameSigma c).utf8Size = c.utf8Size := by
      by_cases hc : c = 'ς'
      · subst hc
        decide
      · rw [sameSigma, if_neg hc]
    rw [List.map_cons, byteLength_cons, byteLength_cons, hsize, ih]

theorem mem_map_sameSigma {d : Char} (hd : isAscii d = true) {cs : List Char} :
    d ∈ cs.map sameSigma ↔ d ∈ cs := by
  have hfix : ∀ c, sameSigma c = d ↔ c = d := by
    intro c
    by_cases hc : c = 'ς'
    · subst hc
      rw [sameSigma, if_pos rfl]
      constructor
      · rintro rfl
        exact absurd hd (by decide)
      · rintro rfl
        exact absurd hd (by decide)
    · rw [sameSigma, if_neg hc]
  simp [List.mem_map, hfix]

/-- The parts of a text have their own lower-case forms, the forms of the small sigma apart. -/
theorem exists_lowerAfter_append (before x y : List Char) :
    ∃ front, lowerAfter before (x ++ y) = front ++ lowerAfter (x.reverse ++ before) y ∧
      front.map sameSigma = (lower x).map sameSigma := by
  induction x generalizing before with
  | nil => exact ⟨[], rfl, rfl⟩
  | cons c cs ih =>
    obtain ⟨front, h, hsame⟩ := ih (c :: before)
    rw [List.cons_append, lowerAfter, h, List.reverse_cons, List.append_assoc cs.reverse,
      List.singleton_append, ← List.append_assoc]
    refine ⟨_, rfl, ?_⟩
    rw [List.map_append, hsame, lower, lower, lowerAfter, List.map_append,
      map_sameSigma_lowerAfter [c] []]
    congr 1
    split
    · exact map_sameSigma_sigma _ _
    · rfl

theorem exists_lower_around {m : List Char} (hm : ∀ c ∈ m, isAscii c = true) (x y : List Char) :
    ∃ x' y', lower (x ++ (m ++ y)) = x' ++ (m.map Char.toLower ++ y') ∧
      byteLength x' = byteLength (lower x) ∧
      ∀ d, isAscii d = true → d.isAlpha = false → (d ∈ x' → d ∈ x) ∧ (d ∈ y' → d ∈ y) := by
  obtain ⟨front, h, hsame⟩ := exists_lowerAfter_append [] x (m ++ y)
  rw [lowerAfter_append_of_isAscii hm] at h
  refine ⟨front, _, h, ?_, fun d hd hletter =>
    ⟨fun hx => ?_, fun hy => mem_of_mem_lowerAfter hy hd hletter⟩⟩
  · rw [← byteLength_map_sameSigma, hsame, byteLength_map_sameSigma]
  · rw [← mem_map_sameSigma hd, hsame, mem_map_sameSigma hd] at hx
    exact mem_of_mem_lowerAfter hx hd hletter

/-- Whether the lower-case form of a text ends with a word is settled behind a character that is not
part of the word. -/
theorem endsWith_lower_stop {w : List Char} (hw : 'σ' ∉ w ∧ 'ς' ∉ w) {s : Char}
    (hs : isAscii s = true) (hsw : s.toLower ∉ w) (u z : List Char) :
    endsWith w (lower (u ++ s :: z)) = endsWith w (lower z) := by
  have hsigma : s ≠ 'Σ' := by
    rintro rfl
    exact absurd hs (by decide)
  obtain ⟨front, h, -⟩ := exists_lowerAfter_append [] u (s :: z)
  rw [lower, h, lowerAfter, if_neg hsigma, lowerChar_of_isAscii hs, List.singleton_append,
    endsWith_stop hsw, ← endsWith_map_sameSigma hw, map_sameSigma_lowerAfter _ [],
    endsWith_map_sameSigma hw, lower]

end SignatureInference.Text
