import SignatureInference.Proofs.Text.Utf8
import SignatureInference.Text.Basic

/-! # The bytes of a text

A character that takes one byte is that byte, and all bytes of other characters are above ASCII. So
what is looked for among the bytes of a text is found where it stands in the text, as long as it is
ASCII. Bytes can be read exactly if they are those of a text.
-/
namespace SignatureInference.Text

def bytes (cs : List Char) : List UInt8 := cs.flatMap String.utf8EncodeChar

@[simp] theorem bytes_nil : bytes [] = [] := rfl

@[simp] theorem bytes_cons (c : Char) (cs : List Char) :
    bytes (c :: cs) = String.utf8EncodeChar c ++ bytes cs :=
  List.flatMap_cons

@[simp] theorem bytes_append (a b : List Char) : bytes (a ++ b) = bytes a ++ bytes b :=
  List.flatMap_append

@[simp] theorem length_bytes (cs : List Char) : (bytes cs).length = byteLength cs := by
  induction cs with
  | nil => rfl
  | cons c cs ih =>
    rw [bytes_cons, List.length_append, String.length_utf8EncodeChar, ih, byteLength_cons]

variable {c d : Char} {cs : List Char}

/-! ## Characters of one byte, and others -/

theorem toUInt8_inj (hc : c.utf8Size = 1) (hd : d.utf8Size = 1) :
    c.toUInt8 = d.toUInt8 ↔ c = d := by
  have hsmall : ∀ {e : Char}, e.utf8Size = 1 → e.val.toNat < 128 := by
    intro e he
    have hle := Char.utf8Size_eq_one_iff.mp he
    rw [UInt32.le_iff_toNat_le] at hle
    exact Nat.lt_succ_of_le hle
  constructor
  · intro h
    have h := congrArg UInt8.toNat h
    rw [Char.toUInt8, Char.toUInt8, UInt32.toNat_toUInt8, UInt32.toNat_toUInt8] at h
    have := hsmall hc
    have := hsmall hd
    apply Char.ext
    rw [← UInt32.toNat_inj]
    omega
  · rintro rfl
    rfl

theorem toUInt8_lt (hc : c.utf8Size = 1) : c.toUInt8 < 0x80 := by
  have hle := Char.utf8Size_eq_one_iff.mp hc
  rw [UInt32.le_iff_toNat_le] at hle
  rw [UInt8.lt_iff_toNat_lt, Char.toUInt8, UInt32.toNat_toUInt8]
  have hsmall : c.val.toNat ≤ 127 := hle
  have h128 : UInt8.toNat 0x80 = 128 := rfl
  omega

theorem le_of_mem_utf8EncodeChar (hc : c.utf8Size ≠ 1) {b : UInt8}
    (hb : b ∈ String.utf8EncodeChar c) :
    0x80 ≤ b := by
  have hlarge : ¬c.val.toNat ≤ 127 := fun h =>
    hc (Char.utf8Size_eq_one_iff.mpr (UInt32.le_iff_toNat_le.mpr h))
  have hhigh : ∀ {n : Nat}, 128 ≤ n → n < 256 → b = UInt8.ofNat n → 0x80 ≤ b := by
    rintro n hn hn' rfl
    rw [UInt8.le_iff_toNat_le, toNat_byte hn']
    exact hn
  unfold String.utf8EncodeChar at hb
  dsimp only at hb
  rw [if_neg hlarge] at hb
  split at hb
  · simp only [List.mem_cons, List.not_mem_nil, or_false] at hb
    rcases hb with hb | hb <;> exact hhigh (by omega) (by omega) hb
  · split at hb
    · simp only [List.mem_cons, List.not_mem_nil, or_false] at hb
      rcases hb with hb | hb | hb <;> exact hhigh (by omega) (by omega) hb
    · simp only [List.mem_cons, List.not_mem_nil, or_false] at hb
      rcases hb with hb | hb | hb | hb <;> exact hhigh (by omega) (by omega) hb

theorem ne_toUInt8_of_le {b : UInt8} (hb : 0x80 ≤ b) (hd : d.utf8Size = 1) : b ≠ d.toUInt8 := by
  rintro rfl
  exact absurd (UInt8.lt_of_lt_of_le (toUInt8_lt hd) hb) (UInt8.lt_irrefl _)

theorem bytes_ascii (hcs : ∀ c ∈ cs, c.utf8Size = 1) : bytes cs = cs.map Char.toUInt8 := by
  induction cs with
  | nil => rfl
  | cons c cs ih =>
    rw [bytes_cons, String.utf8EncodeChar_eq_singleton (hcs c List.mem_cons_self),
      ih fun d hd => hcs d (List.mem_cons_of_mem _ hd)]
    rfl

theorem toUInt8_mem_map {word : List Char} (hword : ∀ d ∈ word, d.utf8Size = 1)
    (hc : c.utf8Size = 1) :
    c.toUInt8 ∈ word.map Char.toUInt8 ↔ c ∈ word := by
  constructor
  · intro h
    obtain ⟨d, hd, heq⟩ := List.mem_map.mp h
    rwa [← (toUInt8_inj (hword d hd) hc).mp heq]
  · exact List.mem_map_of_mem

theorem not_mem_map_of_le (word : List Char) (hword : ∀ d ∈ word, d.utf8Size = 1) {b : UInt8}
    (hb : 0x80 ≤ b) :
    b ∉ word.map Char.toUInt8 := by
  intro h
  obtain ⟨d, hd, heq⟩ := List.mem_map.mp h
  exact ne_toUInt8_of_le hb (hword d hd) heq.symm

theorem bytes_cons_ascii (hc : c.utf8Size = 1) (cs : List Char) :
    bytes (c :: cs) = c.toUInt8 :: bytes cs := by
  rw [bytes_cons, String.utf8EncodeChar_eq_singleton hc]
  rfl

theorem exists_cons_of_size_ne (hc : c.utf8Size ≠ 1) :
    ∃ b rest, String.utf8EncodeChar c = b :: rest ∧ 0x80 ≤ b := by
  have hne : String.utf8EncodeChar c ≠ [] := by
    intro h
    have hlen := String.length_utf8EncodeChar c
    rw [h, List.length_nil] at hlen
    have := c.utf8Size_pos
    omega
  obtain ⟨b, rest, he⟩ := List.exists_cons_of_ne_nil hne
  exact ⟨b, rest, he, le_of_mem_utf8EncodeChar hc (by rw [he]; exact List.mem_cons_self)⟩

/-! ## Looking for ASCII -/

theorem head?_bytes (hd : d.utf8Size = 1) :
    (bytes cs).head? = some d.toUInt8 ↔ cs.head? = some d := by
  cases cs with
  | nil => simp
  | cons c cs =>
    by_cases hc : c.utf8Size = 1
    · rw [bytes_cons_ascii hc, List.head?_cons, List.head?_cons, Option.some.injEq,
        Option.some.injEq]
      exact toUInt8_inj hc hd
    · obtain ⟨b, rest, he, hb⟩ := exists_cons_of_size_ne hc
      rw [bytes_cons, he, List.cons_append, List.head?_cons, List.head?_cons, Option.some.injEq,
        Option.some.injEq]
      refine ⟨fun h => absurd h (ne_toUInt8_of_le hb hd), ?_⟩
      rintro rfl
      exact absurd hd hc

theorem isPrefixOf_bytes (word : List Char) (hword : ∀ d ∈ word, d.utf8Size = 1) (cs : List Char) :
    (word.map Char.toUInt8).isPrefixOf (bytes cs) = word.isPrefixOf cs := by
  induction word generalizing cs with
  | nil => simp
  | cons d word ih =>
    have hd := hword d List.mem_cons_self
    cases cs with
    | nil => rfl
    | cons c cs =>
      by_cases hc : c.utf8Size = 1
      · rw [bytes_cons_ascii hc, List.map_cons, List.isPrefixOf_cons_cons,
          List.isPrefixOf_cons_cons, ih fun e he => hword e (List.mem_cons_of_mem _ he)]
        congr 1
        rw [Bool.eq_iff_iff, beq_iff_eq, beq_iff_eq]
        exact toUInt8_inj hd hc
      · obtain ⟨b, rest, he, hb⟩ := exists_cons_of_size_ne hc
        rw [bytes_cons, he, List.cons_append, List.map_cons, List.isPrefixOf_cons_cons,
          List.isPrefixOf_cons_cons]
        have hbyte : (d.toUInt8 == b) = false := beq_false_of_ne (ne_toUInt8_of_le hb hd).symm
        have hchar : (d == c) = false := by
          rw [beq_eq_false_iff_ne]
          rintro rfl
          exact hc hd
        rw [hbyte, hchar, Bool.false_and, Bool.false_and]

def onByte (p : Char → Bool) (b : UInt8) : Bool := p (Char.ofUInt8 b)

theorem onByte_ascii (p : Char → Bool) (hc : c.utf8Size = 1) : onByte p c.toUInt8 = p c := by
  have hle := Char.utf8Size_eq_one_iff.mp hc
  rw [UInt32.le_iff_toNat_le] at hle
  have hsmall : c.val.toNat ≤ 127 := hle
  suffices h : Char.ofUInt8 c.toUInt8 = c by rw [onByte, h]
  apply Char.ext
  rw [← UInt32.toNat_inj]
  change c.val.toUInt8.toUInt32.toNat = _
  rw [UInt8.toNat_toUInt32, UInt32.toNat_toUInt8]
  omega

section

variable {p : Char → Bool} (hp : ∀ c, p c = true → c.utf8Size = 1)
include hp

theorem eq_false_of_size_ne (hc : c.utf8Size ≠ 1) : p c = false := by
  cases h : p c with
  | false => rfl
  | true => exact absurd (hp c h) hc

theorem onByte_of_le {b : UInt8} (hb : 0x80 ≤ b) : onByte p b = false := by
  apply eq_false_of_size_ne hp
  intro hsize
  have hle := Char.utf8Size_eq_one_iff.mp hsize
  rw [UInt32.le_iff_toNat_le] at hle
  rw [UInt8.le_iff_toNat_le] at hb
  have hsmall : b.toNat ≤ 127 := hle
  have hlarge : 128 ≤ b.toNat := hb
  omega

theorem takeWhile_bytes (cs : List Char) :
    (bytes cs).takeWhile (onByte p) = bytes (cs.takeWhile p) := by
  induction cs with
  | nil => rfl
  | cons c cs ih =>
    by_cases hc : c.utf8Size = 1
    · rw [bytes_cons_ascii hc, List.takeWhile_cons, List.takeWhile_cons, onByte_ascii p hc]
      cases p c with
      | false => rfl
      | true => simp [ih, bytes_cons_ascii hc]
    · obtain ⟨b, rest, he, hb⟩ := exists_cons_of_size_ne hc
      rw [bytes_cons, he, List.cons_append, List.takeWhile_cons, List.takeWhile_cons,
        onByte_of_le hp hb, eq_false_of_size_ne hp hc]
      rfl

theorem any_head?_bytes (cs : List Char) : (bytes cs).head?.any (onByte p) = cs.head?.any p := by
  cases cs with
  | nil => rfl
  | cons c cs =>
    by_cases hc : c.utf8Size = 1
    · rw [bytes_cons_ascii hc]
      exact onByte_ascii p hc
    · obtain ⟨b, rest, he, hb⟩ := exists_cons_of_size_ne hc
      rw [bytes_cons, he, List.cons_append]
      exact (onByte_of_le hp hb).trans (eq_false_of_size_ne hp hc).symm

end

/-! ## Reading -/

theorem decode?_bytes_append (cs : List Char) (rest : List UInt8) :
    decode? (bytes cs ++ rest) = (decode? rest).map (cs ++ ·) := by
  induction cs with
  | nil => simp
  | cons c cs ih =>
    have hcons : ∀ more, decode? (String.utf8EncodeChar c ++ more) =
        (decode? more).map (c :: ·) := by
      intro more
      rw [decode?, decode?, decodePieces_utf8EncodeChar, List.mapM_cons]
      cases (decodePieces more).mapM id <;> rfl
    rw [bytes_cons, List.append_assoc, hcons, ih, Option.map_map]
    rfl

theorem decode?_cons_eq_none {b : UInt8} (hlow : 0x80 ≤ b) (hhigh : b < 0xC2) (rest : List UInt8) :
    decode? (b :: rest) = none := by
  rw [UInt8.le_iff_toNat_le] at hlow
  rw [UInt8.lt_iff_toNat_lt] at hhigh
  have h1 : ¬b < 0x80 := by
    rw [UInt8.lt_iff_toNat_lt]
    exact Nat.not_lt.mpr hlow
  have hfirst : ∀ l h : UInt8, 0xC2 ≤ l.toNat → (decide (l ≤ b) && decide (b ≤ h)) = false := by
    intro l h hl
    rw [decide_eq_false, Bool.false_and]
    rw [UInt8.le_iff_toNat_le]
    exact Nat.not_le.mpr (Nat.lt_of_lt_of_le hhigh hl)
  rw [decode?, decodePieces.eq_def]
  dsimp only
  rw [if_neg h1, hfirst _ _ (by decide), hfirst _ _ (by decide), hfirst _ _ (by decide)]
  rfl

theorem getLast?_utf8EncodeChar (hc : c.utf8Size ≠ 1) :
    ∃ b, (String.utf8EncodeChar c).getLast? = some b ∧ 0x80 ≤ b ∧ b < 0xC2 := by
  have hlarge : ¬c.val.toNat ≤ 127 := fun h =>
    hc (Char.utf8Size_eq_one_iff.mpr (UInt32.le_iff_toNat_le.mpr h))
  have hlast : ∀ n : Nat, 128 ≤ n → n < 192 → 0x80 ≤ UInt8.ofNat n ∧ UInt8.ofNat n < 0xC2 := by
    intro n hlow hhigh
    have htwo : UInt8.toNat 0xC2 = 194 := rfl
    rw [UInt8.le_iff_toNat_le, UInt8.lt_iff_toNat_lt, toNat_byte (by omega), htwo]
    exact ⟨hlow, by omega⟩
  unfold String.utf8EncodeChar
  dsimp only
  rw [if_neg hlarge]
  split
  · exact ⟨_, rfl, hlast _ (by omega) (by omega)⟩
  · split
    · exact ⟨_, rfl, hlast _ (by omega) (by omega)⟩
    · exact ⟨_, rfl, hlast _ (by omega) (by omega)⟩

/-! ## Only characters are read -/

theorem toNat_ofNat_of_valid {n : Nat} (h : n < 0xD800 ∨ 0xDFFF < n ∧ n < 0x110000) :
    (Char.ofNat n).toNat = n := by
  have hv : n.isValidChar := h
  rw [Char.ofNat, dif_pos hv]
  rfl

section

variable {a b c d : UInt8}

theorem between_iff {l h : UInt8} :
    (decide (l ≤ a) && decide (a ≤ h)) = true ↔ l.toNat ≤ a.toNat ∧ a.toNat ≤ h.toNat := by
  rw [Bool.and_eq_true, decide_eq_true_eq, decide_eq_true_eq, UInt8.le_iff_toNat_le,
    UInt8.le_iff_toNat_le]

theorem isContinuation_iff :
    isContinuation b = true ↔ 0x80 ≤ b.toNat ∧ b.toNat ≤ 0xBF := between_iff

theorem ofNat_eq_of_toNat {n : Nat} (h : n = a.toNat) : UInt8.ofNat n = a := by
  rw [h, UInt8.ofNat_toNat]

theorem utf8EncodeChar_one (ha : a.toNat < 0x80) :
    String.utf8EncodeChar (Char.ofNat a.toNat) = [a] := by
  have hval : (Char.ofNat a.toNat).val.toNat = a.toNat := toNat_ofNat_of_valid (.inl (by omega))
  unfold String.utf8EncodeChar
  rw [hval]
  dsimp only
  rw [if_pos (by omega), ofNat_eq_of_toNat rfl]

theorem utf8EncodeChar_two (ha : 0xC2 ≤ a.toNat ∧ a.toNat ≤ 0xDF) (hb : isContinuation b = true) :
    String.utf8EncodeChar (Char.ofNat ((a.toNat - 0xC0) * 64 + continuationBits b)) = [a, b] := by
  rw [isContinuation_iff] at hb
  have hval : (Char.ofNat ((a.toNat - 0xC0) * 64 + continuationBits b)).val.toNat =
      (a.toNat - 0xC0) * 64 + continuationBits b :=
    toNat_ofNat_of_valid (.inl (by unfold continuationBits; omega))
  unfold String.utf8EncodeChar
  rw [hval]
  dsimp only [continuationBits]
  rw [if_neg (by omega), if_pos (by omega), ofNat_eq_of_toNat (a := a) (by omega),
    ofNat_eq_of_toNat (a := b) (by omega)]

theorem bounds_of_continues {x l y h : UInt8} (hl : 0x80 ≤ l.toNat) (hh : h.toNat ≤ 0xBF)
    (hxy : x.toNat ≠ y.toNat)
    (hb : (if a == x then decide (l ≤ b) && decide (b ≤ 0xBF)
      else if a == y then decide (0x80 ≤ b) && decide (b ≤ h) else isContinuation b) = true) :
    (0x80 ≤ b.toNat ∧ b.toNat ≤ 0xBF) ∧ (a.toNat = x.toNat → l.toNat ≤ b.toNat) ∧
      (a.toNat = y.toNat → b.toNat ≤ h.toNat) := by
  have hsame : ∀ n : UInt8, (a == n) = true ↔ a.toNat = n.toNat := by
    intro n
    rw [beq_iff_eq, ← UInt8.toNat_inj]
  have h80 : UInt8.toNat 0x80 = 0x80 := rfl
  have hBF : UInt8.toNat 0xBF = 0xBF := rfl
  split at hb
  · next ha =>
    rw [hsame] at ha
    rw [between_iff] at hb
    omega
  · next ha =>
    rw [hsame] at ha
    split at hb
    · next ha' =>
      rw [hsame] at ha'
      rw [between_iff] at hb
      omega
    · next ha' =>
      rw [hsame] at ha'
      rw [isContinuation_iff] at hb
      omega

theorem utf8EncodeChar_three (ha : 0xE0 ≤ a.toNat ∧ a.toNat ≤ 0xEF) (hb : continuesThree a b = true)
    (hc : isContinuation c = true) :
    String.utf8EncodeChar
      (Char.ofNat (((a.toNat - 0xE0) * 64 + continuationBits b) * 64 + continuationBits c)) =
      [a, b, c] := by
  obtain ⟨hbounds, hlow, hhigh⟩ := bounds_of_continues (by decide) (by decide) (by decide) hb
  rw [isContinuation_iff] at hc
  simp only [UInt8.reduceToNat] at hlow hhigh
  have hval : (Char.ofNat (((a.toNat - 0xE0) * 64 + continuationBits b) * 64 +
    continuationBits c)).val.toNat =
      ((a.toNat - 0xE0) * 64 + continuationBits b) * 64 + continuationBits c :=
    toNat_ofNat_of_valid (by unfold continuationBits; omega)
  unfold String.utf8EncodeChar
  rw [hval]
  dsimp only [continuationBits]
  rw [if_neg (by omega), if_neg (by omega), if_pos (by omega),
    ofNat_eq_of_toNat (a := a) (by omega), ofNat_eq_of_toNat (a := b) (by omega),
    ofNat_eq_of_toNat (a := c) (by omega)]

theorem utf8EncodeChar_four (ha : 0xF0 ≤ a.toNat ∧ a.toNat ≤ 0xF4) (hb : continuesFour a b = true)
    (hc : isContinuation c = true) (hd : isContinuation d = true) :
    String.utf8EncodeChar (Char.ofNat ((((a.toNat - 0xF0) * 64 + continuationBits b) * 64 +
      continuationBits c) * 64 + continuationBits d)) = [a, b, c, d] := by
  obtain ⟨hbounds, hlow, hhigh⟩ := bounds_of_continues (by decide) (by decide) (by decide) hb
  rw [isContinuation_iff] at hc hd
  simp only [UInt8.reduceToNat] at hlow hhigh
  have hval : (Char.ofNat
    ((((a.toNat - 0xF0) * 64 + continuationBits b) * 64 + continuationBits c) * 64 +
      continuationBits d)).val.toNat = (((a.toNat - 0xF0) * 64 + continuationBits b) * 64 +
        continuationBits c) * 64 + continuationBits d :=
    toNat_ofNat_of_valid (by unfold continuationBits; omega)
  unfold String.utf8EncodeChar
  rw [hval]
  dsimp only [continuationBits]
  rw [if_neg (by omega), if_neg (by omega), if_neg (by omega),
    ofNat_eq_of_toNat (a := a) (by omega), ofNat_eq_of_toNat (a := b) (by omega),
    ofNat_eq_of_toNat (a := c) (by omega), ofNat_eq_of_toNat (a := d) (by omega)]

end

theorem eq_bytes_of_cons {x : Char} {front rest : List UInt8} {cs : List Char}
    (hx : String.utf8EncodeChar x = front)
    (ih : ∀ {cs}, decodePieces rest = cs.map some → rest = bytes cs)
    (h : some x :: decodePieces rest = cs.map some) : front ++ rest = bytes cs := by
  cases cs with
  | nil => cases h
  | cons c cs =>
    obtain ⟨hc, hrest⟩ := List.cons.inj h
    obtain rfl := Option.some.inj hc
    rw [bytes_cons, hx, ← ih hrest]

theorem eq_bytes_of_decodePieces {bs : List UInt8} {cs : List Char}
    (h : decodePieces bs = cs.map some) :
    bs = bytes cs := by
  have hbad : ∀ {pieces : List (Option Char)} {cs : List Char}, none :: pieces ≠ cs.map some := by
    intro pieces cs
    cases cs <;> simp
  fun_induction decodePieces bs generalizing cs with
  | case1 =>
    rw [List.map_eq_nil_iff.mp h.symm]
    rfl
  | case2 a rest ha ih =>
    rw [UInt8.lt_iff_toNat_lt] at ha
    exact eq_bytes_of_cons (utf8EncodeChar_one ha) ih h
  | case4 a hsmall ha b rest hb ih =>
    exact eq_bytes_of_cons (utf8EncodeChar_two (between_iff.mp ha) hb) ih h
  | case8 a hsmall htwo ha b hb c rest hc ih =>
    exact eq_bytes_of_cons (utf8EncodeChar_three (between_iff.mp ha) hb hc) ih h
  | case14 a hsmall htwo hthree ha b hb c hc d rest hd ih =>
    exact eq_bytes_of_cons (utf8EncodeChar_four (between_iff.mp ha) hb hc hd) ih h
  | _ => exact absurd h hbad

/-- Reading is the inverse of writing, and nothing else can be read. -/
theorem decode?_eq_some_iff {bs : List UInt8} {cs : List Char} :
    decode? bs = some cs ↔ bs = bytes cs := by
  constructor
  · intro h
    apply eq_bytes_of_decodePieces
    rw [decode?] at h
    generalize decodePieces bs = pieces at h
    induction pieces generalizing cs with
    | nil =>
      cases h
      rfl
    | cons piece pieces ih =>
      rw [List.mapM_cons] at h
      obtain ⟨c, hc, hrest⟩ := Option.bind_eq_some_iff.mp h
      obtain ⟨more, hmore, hcs⟩ := Option.bind_eq_some_iff.mp hrest
      cases hcs
      rw [ih hmore, show piece = some c from hc]
      rfl
  · rintro rfl
    exact decode?_flatMap_utf8EncodeChar cs

theorem bytes_injective {cs ds : List Char} (h : bytes cs = bytes ds) : cs = ds := by
  have hcs : decode? (bytes ds) = some cs := decode?_eq_some_iff.mpr h.symm
  rw [decode?_eq_some_iff.mpr rfl] at hcs
  exact (Option.some.inj hcs).symm

/-! ## Line feeds -/

theorem not_continues_lineFeed (a : UInt8) :
    continuesThree a 10 = false ∧ continuesFour a 10 = false := by
  constructor
  · unfold continuesThree
    split
    · rfl
    · split <;> rfl
  · unfold continuesFour
    split
    · rfl
    · split <;> rfl

/-- A line feed ends what stands before it, also a character that breaks off. -/
theorem decodePieces_append_lineFeed (bs : List UInt8) :
    decodePieces (bs ++ [10]) = decodePieces bs ++ [some '\n'] := by
  have hlast : decodePieces [10] = [some '\n'] := by decide
  have hcontinue : isContinuation 10 = false := rfl
  have hthree := fun a => (not_continues_lineFeed a).1
  have hfour := fun a => (not_continues_lineFeed a).2
  fun_induction decodePieces bs with
  | case1 => exact hlast
  | _ =>
    simp only [List.cons_append, List.nil_append] at *
    rw [decodePieces.eq_def]
    simp only [Bool.false_eq_true, ↓reduceIte, *]

theorem lineFeed_not_mem_of_cons {x : Char} {front rest : List UInt8}
    (hx : String.utf8EncodeChar x = front) (ih : 10 ∉ rest → some '\n' ∉ decodePieces rest)
    (h : 10 ∉ front ++ rest) :
    some '\n' ∉ some x :: decodePieces rest := by
  rw [List.mem_append, not_or] at h
  rw [List.mem_cons, not_or]
  refine ⟨?_, ih h.2⟩
  intro hfeed
  rw [← Option.some.inj hfeed] at hx
  exact h.1 (hx ▸ List.mem_singleton_self 10)

theorem lineFeed_not_mem_decodeLossy {bs : List UInt8} (h : 10 ∉ bs) : '\n' ∉ decodeLossy bs := by
  have hpieces : some '\n' ∉ decodePieces bs := by
    fun_induction decodePieces bs with
    | case1 => exact List.not_mem_nil
    | case2 a rest ha ih =>
      rw [UInt8.lt_iff_toNat_lt] at ha
      exact lineFeed_not_mem_of_cons (utf8EncodeChar_one ha) ih h
    | case4 a hsmall ha b rest hb ih =>
      exact lineFeed_not_mem_of_cons (utf8EncodeChar_two (between_iff.mp ha) hb) ih h
    | case8 a hsmall htwo ha b hb c rest hc ih =>
      exact lineFeed_not_mem_of_cons (utf8EncodeChar_three (between_iff.mp ha) hb hc) ih h
    | case14 a hsmall htwo hthree ha b hb c hc d rest hd ih =>
      exact lineFeed_not_mem_of_cons (utf8EncodeChar_four (between_iff.mp ha) hb hc hd) ih h
    | _ => simp_all
  intro hmem
  obtain ⟨piece, hpiece, heq⟩ := List.mem_map.mp hmem
  cases piece with
  | none => revert heq; decide
  | some c => exact hpieces (heq ▸ hpiece)

end SignatureInference.Text
