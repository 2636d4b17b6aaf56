import Mathlib.Data.List.Basic
import SignatureInference.Text.Utf8

/-! # Reading back what was encoded

The bytes of a text are the bytes of its characters one after another. Reading them gives the text
back, and a line feed is the only character whose bytes have the byte of a line feed.
-/
namespace SignatureInference.Text

theorem toList_loop (bytes : ByteArray) (i : Nat) (r : List UInt8) :
    ByteArray.toList.loop bytes i r = r.reverse ++ bytes.data.toList.drop i := by
  fun_induction ByteArray.toList.loop bytes i r with
  | case1 i r hi ih =>
    have hi' : i < bytes.data.toList.length := hi
    have hget : bytes.get! i = bytes.data.toList[i] := by
      simp only [ByteArray.get!]
      exact getElem!_pos bytes.data i hi
    rw [ih, List.reverse_cons, List.append_assoc, List.singleton_append, hget,
      ← List.drop_eq_getElem_cons hi']
  | case2 i r hi =>
    have hi' : bytes.data.toList.length ≤ i := Nat.le_of_not_lt hi
    rw [List.drop_eq_nil_of_le hi', List.append_nil]

theorem toList_toUTF8 (s : String) : s.toUTF8.toList = s.toList.flatMap String.utf8EncodeChar := by
  rw [String.toUTF8_eq_toByteArray, ← String.utf8Encode_toList, ByteArray.toList, toList_loop,
    List.utf8Encode, List.toList_data_toByteArray]
  rfl

theorem toNat_byte {n : Nat} (hn : n < 256) : (UInt8.ofNat n).toNat = n := by
  rw [UInt8.toNat_ofNat', Nat.mod_eq_of_lt hn]

theorem byte_lt {n m : Nat} (hn : n < 256) (hm : m < 256) : UInt8.ofNat n < .ofNat m ↔ n < m := by
  rw [UInt8.lt_iff_toNat_lt, toNat_byte hn, toNat_byte hm]

theorem beq_byte {n m : Nat} (hn : n < 256) (hm : m < 256) :
    (UInt8.ofNat n == .ofNat m) = decide (n = m) := by
  rw [beq_eq_decide, decide_eq_decide, ← UInt8.toNat_inj, toNat_byte hn, toNat_byte hm]

theorem between_byte {l n h : Nat} (hl : l < 256) (hn : n < 256) (hh : h < 256) :
    (decide (UInt8.ofNat l ≤ .ofNat n) && decide (UInt8.ofNat n ≤ .ofNat h)) =
      decide (l ≤ n ∧ n ≤ h) := by
  rw [Bool.decide_and]
  simp only [UInt8.le_iff_toNat_le, toNat_byte hl, toNat_byte hn, toNat_byte hh]

theorem isContinuation_byte {b : Nat} (hb : b < 256) :
    isContinuation (.ofNat b) = decide (0x80 ≤ b ∧ b ≤ 0xBF) :=
  between_byte (by decide) hb (by decide)

theorem continuationBits_byte {b : Nat} (hb : b < 256) : continuationBits (.ofNat b) = b - 0x80 :=
  congrArg (· - 0x80) (toNat_byte hb)

/-- The second byte is restricted from below after one first byte and from above after another. -/
theorem continues_byte {a b x l y h : Nat} (hbytes : ([a, x, l, y, h].all (· < 256)) = true)
    (hb : 0x80 ≤ b ∧ b ≤ 0xBF) (hlow : a = x → l ≤ b) (hhigh : a = y → b ≤ h) :
    (if UInt8.ofNat a == .ofNat x then decide (UInt8.ofNat l ≤ .ofNat b) &&
      decide (UInt8.ofNat b ≤ .ofNat 0xBF)
      else if UInt8.ofNat a == .ofNat y then
        decide (UInt8.ofNat 0x80 ≤ .ofNat b) && decide (UInt8.ofNat b ≤ .ofNat h)
      else isContinuation (.ofNat b)) = true := by
  simp only [List.all_cons, List.all_nil, Bool.and_true, Bool.and_eq_true,
    decide_eq_true_eq] at hbytes
  obtain ⟨ha, hx, hl, hy, hh⟩ := hbytes
  have hb' : b < 256 := by omega
  rw [beq_byte ha hx, beq_byte ha hy, between_byte hl hb' (by decide),
    between_byte (by decide) hb' hh, isContinuation_byte hb']
  split
  · next hax => exact decide_eq_true ⟨hlow (of_decide_eq_true hax), hb.2⟩
  · split
    · next hay => exact decide_eq_true ⟨hb.1, hhigh (of_decide_eq_true hay)⟩
    · exact decide_eq_true hb

theorem not_ascii_byte {a : Nat} (ha : 0x80 ≤ a) (ha' : a < 256) : ¬UInt8.ofNat a < 0x80 := by
  intro hlt
  have := (byte_lt ha' (show 0x80 < 256 by decide)).mp hlt
  omega

theorem begins_two {a : Nat} (ha : a < 256) :
    (decide ((0xC2 : UInt8) ≤ .ofNat a) && decide (UInt8.ofNat a ≤ 0xDF)) =
      decide (0xC2 ≤ a ∧ a ≤ 0xDF) :=
  between_byte (by decide) ha (by decide)

theorem begins_three {a : Nat} (ha : a < 256) :
    (decide ((0xE0 : UInt8) ≤ .ofNat a) && decide (UInt8.ofNat a ≤ 0xEF)) =
      decide (0xE0 ≤ a ∧ a ≤ 0xEF) :=
  between_byte (by decide) ha (by decide)

theorem begins_four {a : Nat} (ha : a < 256) :
    (decide ((0xF0 : UInt8) ≤ .ofNat a) && decide (UInt8.ofNat a ≤ 0xF4)) =
      decide (0xF0 ≤ a ∧ a ≤ 0xF4) :=
  between_byte (by decide) ha (by decide)

theorem decodePieces_one {a : Nat} (ha : a < 0x80) (bytes : List UInt8) :
    decodePieces (.ofNat a :: bytes) = some (Char.ofNat a) :: decodePieces bytes := by
  have hlt : UInt8.ofNat a < 0x80 := (byte_lt (m := 0x80) (by omega) (by decide)).mpr ha
  conv_lhs => unfold decodePieces
  rw [if_pos hlt, toNat_byte (by omega)]

theorem decodePieces_two {a b : Nat} (ha : 0xC2 ≤ a ∧ a ≤ 0xDF) (hb : 0x80 ≤ b ∧ b ≤ 0xBF)
    (bytes : List UInt8) :
    decodePieces (.ofNat a :: .ofNat b :: bytes) =
      some (Char.ofNat ((a - 0xC0) * 64 + (b - 0x80))) :: decodePieces bytes := by
  have ha' : a < 256 := by omega
  have hb' : b < 256 := by omega
  conv_lhs => unfold decodePieces
  rw [if_neg (not_ascii_byte (by omega) ha'), if_pos ((begins_two ha').trans (decide_eq_true ha))]
  dsimp only
  rw [if_pos ((isContinuation_byte hb').trans (decide_eq_true hb)), continuationBits_byte hb',
    toNat_byte ha']

theorem decodePieces_three {a b c : Nat} (ha : 0xE0 ≤ a ∧ a ≤ 0xEF) (hb : 0x80 ≤ b ∧ b ≤ 0xBF)
    (hc : 0x80 ≤ c ∧ c ≤ 0xBF) (hlow : a = 0xE0 → 0xA0 ≤ b) (hhigh : a = 0xED → b ≤ 0x9F)
    (bytes : List UInt8) :
    decodePieces (.ofNat a :: .ofNat b :: .ofNat c :: bytes) =
      some (Char.ofNat (((a - 0xE0) * 64 + (b - 0x80)) * 64 + (c - 0x80))) ::
        decodePieces bytes := by
  have ha' : a < 256 := by omega
  have hb' : b < 256 := by omega
  have hc' : c < 256 := by omega
  have hsecond : continuesThree (.ofNat a) (.ofNat b) = true :=
    continues_byte (by simp [ha']) hb hlow hhigh
  conv_lhs => unfold decodePieces
  rw [if_neg (not_ascii_byte (by omega) ha'),
    if_neg (ne_true_of_eq_false ((begins_two ha').trans (decide_eq_false (by omega)))),
    if_pos ((begins_three ha').trans (decide_eq_true ha))]
  dsimp only
  rw [if_pos hsecond, if_pos ((isContinuation_byte hc').trans (decide_eq_true hc)),
    continuationBits_byte hb', continuationBits_byte hc', toNat_byte ha']

theorem decodePieces_four {a b c d : Nat} (ha : 0xF0 ≤ a ∧ a ≤ 0xF4) (hb : 0x80 ≤ b ∧ b ≤ 0xBF)
    (hc : 0x80 ≤ c ∧ c ≤ 0xBF) (hd : 0x80 ≤ d ∧ d ≤ 0xBF) (hlow : a = 0xF0 → 0x90 ≤ b)
    (hhigh : a = 0xF4 → b ≤ 0x8F) (bytes : List UInt8) :
    decodePieces (.ofNat a :: .ofNat b :: .ofNat c :: .ofNat d :: bytes) =
      some (Char.ofNat ((((a - 0xF0) * 64 + (b - 0x80)) * 64 + (c - 0x80)) * 64 + (d - 0x80))) ::
        decodePieces bytes := by
  have ha' : a < 256 := by omega
  have hb' : b < 256 := by omega
  have hc' : c < 256 := by omega
  have hd' : d < 256 := by omega
  have hsecond : continuesFour (.ofNat a) (.ofNat b) = true :=
    continues_byte (by simp [ha']) hb hlow hhigh
  conv_lhs => unfold decodePieces
  rw [if_neg (not_ascii_byte (by omega) ha'),
    if_neg (ne_true_of_eq_false ((begins_two ha').trans (decide_eq_false (by omega)))),
    if_neg (ne_true_of_eq_false ((begins_three ha').trans (decide_eq_false (by omega)))),
    if_pos ((begins_four ha').trans (decide_eq_true ha))]
  dsimp only
  rw [if_pos hsecond, if_pos ((isContinuation_byte hc').trans (decide_eq_true hc)),
    if_pos ((isContinuation_byte hd').trans (decide_eq_true hd)), continuationBits_byte hb',
    continuationBits_byte hc', continuationBits_byte hd', toNat_byte ha']

theorem decodePieces_utf8EncodeChar (c : Char) (bytes : List UInt8) :
    decodePieces (String.utf8EncodeChar c ++ bytes) = some c :: decodePieces bytes := by
  have hvalid : c.toNat < 0xD800 ∨ 0xDFFF < c.toNat ∧ c.toNat < 0x110000 := c.valid
  have hchar {n : Nat} (hn : n = c.toNat) : Char.ofNat n = c := by rw [hn, Char.ofNat_toNat]
  have hval : c.val.toNat = c.toNat := rfl
  unfold String.utf8EncodeChar
  rw [hval]
  dsimp only
  split
  · rw [List.singleton_append, decodePieces_one (by omega), hchar rfl]
  · split
    · rw [List.cons_append, List.singleton_append, decodePieces_two (by omega) (by omega),
        hchar (by omega)]
    · split
      · rw [List.cons_append, List.cons_append, List.singleton_append,
          decodePieces_three (by omega) (by omega) (by omega) (by omega) (by omega),
          hchar (by omega)]
      · rw [List.cons_append, List.cons_append, List.cons_append, List.singleton_append,
          decodePieces_four (by omega) (by omega) (by omega) (by omega) (by omega) (by omega),
          hchar (by omega)]

theorem decode?_flatMap_utf8EncodeChar (cs : List Char) :
    decode? (cs.flatMap String.utf8EncodeChar) = some cs := by
  have hpieces : decodePieces (cs.flatMap String.utf8EncodeChar) = cs.map some := by
    induction cs with
    | nil => rfl
    | cons c cs ih => rw [List.flatMap_cons, decodePieces_utf8EncodeChar, ih, List.map_cons]
  rw [decode?, hpieces]
  clear hpieces
  induction cs with
  | nil => rfl
  | cons c cs ih =>
    rw [List.map_cons, List.mapM_cons, ih]
    rfl

theorem eq_lineFeed_of_mem_utf8EncodeChar {c : Char} (h : 10 ∈ String.utf8EncodeChar c) :
    c = '\n' := by
  have hvalid : c.toNat < 0xD800 ∨ 0xDFFF < c.toNat ∧ c.toNat < 0x110000 := c.valid
  have hval : c.val.toNat = c.toNat := rfl
  have hbyte {n : Nat} (hn : n < 256) (hten : 10 = UInt8.ofNat n) : n = 10 := by
    rw [← toNat_byte hn, ← hten]
    rfl
  unfold String.utf8EncodeChar at h
  rw [hval] at h
  dsimp only at h
  split at h
  · have hten := hbyte (by omega) (List.mem_singleton.mp h)
    rw [← Char.ofNat_toNat c, hten]
  · -- all other bytes are above ASCII
    split at h
    · simp only [List.mem_cons, List.not_mem_nil, or_false] at h
      rcases h with h | h
      all_goals
        have hten := hbyte (by omega) h
        omega
    · split at h
      · simp only [List.mem_cons, List.not_mem_nil, or_false] at h
        rcases h with h | h | h
        all_goals
          have hten := hbyte (by omega) h
          omega
      · simp only [List.mem_cons, List.not_mem_nil, or_false] at h
        rcases h with h | h | h | h
        all_goals
          have hten := hbyte (by omega) h
          omega

end SignatureInference.Text
