import SignatureInference.Text.Blank
import SignatureInference.Text.Letter
import Mathlib.Data.List.TakeWhile
import Mathlib.Tactic

/-! # Readers that meet a character they cannot read

Each of the small readers takes something off the front of a text. Where the text holds a character
that the reader does not accept, what the reader takes and whether it succeeds is settled in front
of that character, and all the text from there on is handed back unread.
-/
namespace SignatureInference.Text

/-! ## Characters of a text

What is said of all characters of a text is decided on the text, and not on all characters there
are.
-/

instance decidableForallMemList (p : Char → Prop) [DecidablePred p] (cs : List Char) :
    Decidable (∀ c ∈ cs, p c) :=
  List.decidableBAll p cs

instance decidableForallMemOption (p : Char → Prop) [DecidablePred p] (o : Option Char) :
    Decidable (∀ c ∈ o, p c) :=
  match o with
  | none => isTrue (by simp)
  | some c => decidable_of_iff (p c) (by simp)

/-! ## Letters -/

theorem isUpper_iff {c : Char} : c.isUpper = true ↔ 65 ≤ c.toNat ∧ c.toNat ≤ 90 :=
  decide_eq_true_iff.trans (and_congr UInt32.le_iff_toNat_le UInt32.le_iff_toNat_le)

theorem isLower_iff {c : Char} : c.isLower = true ↔ 97 ≤ c.toNat ∧ c.toNat ≤ 122 :=
  (Bool.and_eq_true_iff).trans (and_congr (decide_eq_true_iff.trans UInt32.le_iff_toNat_le)
    (decide_eq_true_iff.trans UInt32.le_iff_toNat_le))

theorem isAlpha_iff {c : Char} : c.isAlpha = true ↔ c.isUpper = true ∨ c.isLower = true :=
  Bool.or_eq_true_iff

theorem toLower_of_not_isUpper {c : Char} (h : c.isUpper = false) : c.toLower = c :=
  dif_neg (of_decide_eq_false h)

theorem isBlank_of_isIdentPart {c : Char} (h : isIdentPart c = true) : isBlank c = false := by
  have hrange : (48 ≤ c.toNat ∧ c.toNat ≤ 57) ∨ (65 ≤ c.toNat ∧ c.toNat ≤ 90) ∨ c.toNat = 95 ∨
      (97 ≤ c.toNat ∧ c.toNat ≤ 122) := by
    simp only [isIdentPart, Char.isAlphanum, Bool.or_eq_true, isAlpha_iff, isUpper_iff,
      isLower_iff] at h
    rcases h with ((h | h) | h) | h
    · exact .inr (.inl h)
    · exact .inr (.inr (.inr h))
    · have hdigit : 48 ≤ c.toNat ∧ c.toNat ≤ 57 := by
        simpa [Char.isDigit, UInt32.le_iff_toNat_le] using h
      exact .inl hdigit
    · rw [beq_iff_eq.mp h]
      exact .inr (.inr (.inl rfl))
  by_contra hblank
  simp only [isBlank, Bool.not_eq_false, Bool.or_eq_true, Bool.and_eq_true,
    decide_eq_true_eq, beq_iff_eq]
    at hblank
  omega

theorem isWordChar_of_isIdentPart {c : Char} (h : isIdentPart c = true) : isWordChar c = true := by
  simp only [isIdentPart, Bool.or_eq_true] at h
  simp only [isWordChar, Bool.or_eq_true]
  exact .inl h

def blankCodes : List Nat :=
  [9, 10, 11, 12, 13, 32, 0x85, 0xA0, 0x1680, 0x2000, 0x2001, 0x2002, 0x2003, 0x2004,
    0x2005, 0x2006, 0x2007, 0x2008, 0x2009, 0x200A, 0x2028, 0x2029, 0x202F, 0x205F, 0x3000]

theorem toNat_mem_blankCodes {c : Char} (h : isBlank c = true) : c.toNat ∈ blankCodes := by
  simp only [isBlank, Bool.or_eq_true, Bool.and_eq_true, decide_eq_true_eq, beq_iff_eq] at h
  simp only [blankCodes, List.mem_cons, List.not_mem_nil, or_false]
  omega

/-! ## Readers -/

section

variable {p : Char → Bool} {s : Char}

theorem dropWhile_stop (hs : p s = false) (u z : List Char) :
    (u ++ s :: z).dropWhile p = u.dropWhile p ++ s :: z := by
  rw [List.dropWhile_append]
  split
  · next h => rw [List.isEmpty_iff.mp h, List.dropWhile_cons_of_neg (by simp [hs]), List.nil_append]
  · rfl

theorem takeWhile_stop (hs : p s = false) (u z : List Char) :
    (u ++ s :: z).takeWhile p = u.takeWhile p := by
  rw [List.takeWhile_append, List.takeWhile_cons_of_neg (by simp [hs]), List.append_nil]
  split
  · next h => exact ((List.takeWhile_prefix p).eq_of_length h).symm
  · rfl

theorem dropEndWhile_stop (hs : p s = false) (u z : List Char) :
    dropEndWhile p (u ++ s :: z) = u ++ s :: dropEndWhile p z := by
  have h := dropWhile_stop hs z.reverse u.reverse
  simp only [dropEndWhile, List.reverse_append, List.reverse_cons, List.append_assoc,
    List.singleton_append, h]
  simp

theorem isPrefix_dropEndWhile (cs : List Char) : dropEndWhile p cs <+: cs := by
  have hsuffix := List.dropWhile_suffix p (l := cs.reverse)
  rwa [← List.reverse_prefix, List.reverse_reverse] at hsuffix

end

variable {s : Char}

theorem trimEnd_stop (hs : isBlank s = false) (u z : List Char) :
    trimEnd (u ++ s :: z) = u ++ s :: trimEnd z :=
  dropEndWhile_stop hs u z

theorem trimStart_stop (hs : isBlank s = false) (u z : List Char) :
    trimStart (u ++ s :: z) = trimStart u ++ s :: z :=
  dropWhile_stop hs u z

theorem dropBlanks?_stop (hs : isBlank s = false) (u z : List Char) :
    dropBlanks? (u ++ s :: z) = (dropBlanks? u).map (· ++ s :: z) := by
  cases u with
  | nil => simp [dropBlanks?, hs]
  | cons c cs =>
    have := trimStart_stop hs (c :: cs) z
    simp only [List.cons_append] at this
    simp only [dropBlanks?, List.cons_append, this]
    split <;> rfl

theorem dropHead?_stop {h : List Char} (hs : s ∉ h) (u z : List Char) :
    dropHead? h (u ++ s :: z) = (dropHead? h u).map (· ++ s :: z) := by
  induction h generalizing u with
  | nil => simp [dropHead?]
  | cons d ds ih =>
    have hne : d ≠ s := fun he => hs (he ▸ List.mem_cons_self)
    cases u with
    | nil => simp [dropHead?, hne]
    | cons c cs =>
      simp only [List.cons_append, dropHead?, ih fun hm => hs (List.mem_cons_of_mem _ hm)]
      split <;> rfl

theorem dropWord?_stop {w : List Char} (hs : foldLetter s ∉ w) (u z : List Char) :
    dropWord? w (u ++ s :: z) = (dropWord? w u).map (· ++ s :: z) := by
  induction w generalizing u with
  | nil => simp [dropWord?]
  | cons d ds ih =>
    have hne : foldLetter s ≠ d := fun he => hs (he ▸ List.mem_cons_self)
    cases u with
    | nil => simp [dropWord?, hne]
    | cons c cs =>
      simp only [List.cons_append, dropWord?, ih fun hm => hs (List.mem_cons_of_mem _ hm)]
      split <;> rfl

theorem dropHead?_singleton_append (x : Char) {v : List Char} (hv : v ≠ []) (z : List Char) :
    dropHead? [x] (v ++ z) = (dropHead? [x] v).map (· ++ z) := by
  cases v with
  | nil => exact absurd rfl hv
  | cons c cs =>
    simp only [List.cons_append, dropHead?]
    split <;> rfl

theorem startsWith_stop {h : List Char} (hs : s ∉ h) (u z : List Char) :
    startsWith h (u ++ s :: z) = startsWith h u := by
  simp [startsWith, dropHead?_stop hs]

/-! ## What is read -/

theorem eq_append_of_dropHead? {h cs rest : List Char} (hd : dropHead? h cs = some rest) :
    cs = h ++ rest := by
  induction h generalizing cs with
  | nil =>
    rw [dropHead?, Option.some.injEq] at hd
    exact hd
  | cons d ds ih =>
    cases cs with
    | nil => cases hd
    | cons c cs =>
      rw [dropHead?] at hd
      split at hd
      · next he => rw [he, ih hd, List.cons_append]
      · cases hd

theorem dropHead?_append (h rest : List Char) : dropHead? h (h ++ rest) = some rest := by
  induction h with
  | nil => rfl
  | cons c cs ih => rw [List.cons_append, dropHead?, if_pos rfl, ih]

theorem exists_append_of_dropWord? {w cs rest : List Char} (hd : dropWord? w cs = some rest) :
    ∃ v, cs = v ++ rest ∧ v.map foldLetter = w := by
  induction w generalizing cs with
  | nil =>
    rw [dropWord?, Option.some.injEq] at hd
    exact ⟨[], hd, rfl⟩
  | cons d ds ih =>
    cases cs with
    | nil => cases hd
    | cons c cs =>
      rw [dropWord?] at hd
      split at hd
      · next he =>
        obtain ⟨v, hv, hm⟩ := ih hd
        exact ⟨c :: v, by rw [hv, List.cons_append], by rw [List.map_cons, hm, he]⟩
      · cases hd

theorem exists_append_trimStart (cs : List Char) :
    ∃ v, cs = v ++ trimStart cs ∧ ∀ c ∈ v, isBlank c = true :=
  ⟨cs.takeWhile isBlank, (List.takeWhile_append_dropWhile).symm,
    fun _ h => List.mem_takeWhile_imp h⟩

theorem trimStart_blanks {v : List Char} (hv : ∀ c ∈ v, isBlank c = true) (z : List Char) :
    trimStart (v ++ z) = trimStart z :=
  List.dropWhile_append_of_pos hv

theorem trimStart_cons_of_not_blank {c : Char} (hc : isBlank c = false) (z : List Char) :
    trimStart (c :: z) = c :: z :=
  List.dropWhile_cons_of_neg (by simp [hc])

theorem trimStart_trimStart (cs : List Char) : trimStart (trimStart cs) = trimStart cs := by
  cases h : trimStart cs with
  | nil => rfl
  | cons c rest =>
    have hc := List.head?_dropWhile_not isBlank cs
    rw [show cs.dropWhile isBlank = c :: rest from h] at hc
    exact trimStart_cons_of_not_blank (by simpa using hc) rest

theorem exists_append_of_dropBlanks? {cs rest : List Char} (h : dropBlanks? cs = some rest) :
    rest = trimStart cs := by
  unfold dropBlanks? at h
  split at h
  · cases h
  · split at h
    · exact (Option.some.inj h).symm
    · cases h

end SignatureInference.Text
