import Mathlib.Data.Nat.Count
import Mathlib.Data.Prod.Lex
import SignatureInference.Proofs.Text.Offsets
import SignatureInference.Text.Position

/-! # Lines and columns identify offsets

Positions are ordered by line and then by column. An offset that moves on by one byte passes the
character that begins there, if one does, and each character passed leads to a later position: one
further in its line, or at the front of the next line. So positions never go back as offsets grow,
they stay only within a character, and two offsets between characters have two positions.
-/
namespace SignatureInference.Text

/-! ## The characters before an offset -/

theorem splitAt?_head?_eq_some_iff {cs : List Char} {n : Nat} {c : Char} :
    ((splitAt? n cs).bind fun parts => parts.2.head?) = some c ↔ HasAt cs n c := by
  constructor
  · intro h
    obtain ⟨⟨front, back⟩, hsplit, hhead⟩ := Option.bind_eq_some_iff.mp h
    obtain ⟨rest, rfl⟩ := List.head?_eq_some_iff.mp hhead
    obtain ⟨rfl, hfront⟩ := eq_append_of_splitAt? hsplit
    exact ⟨front, rest, rfl, hfront⟩
  · rintro ⟨front, rest, rfl, rfl⟩
    rw [splitAt?_byteLength]
    rfl

instance (cs : List Char) (n : Nat) (c : Char) : Decidable (HasAt cs n c) :=
  decidable_of_iff _ splitAt?_head?_eq_some_iff

section

variable {cs : List Char} {n : Nat} {c : Char}

theorem HasAt.takeBytes_succ (h : HasAt cs n c) : takeBytes (n + 1) cs = takeBytes n cs ++ [c] := by
  obtain ⟨front, rest, rfl, rfl⟩ := h
  rw [takeBytes_append, takeBytes_byteLength, takeBytes,
    Nat.sub_eq_zero_of_le c.utf8Size_pos, takeBytes]

theorem takeBytes_succ_of_not_hasAt (h : ∀ c, ¬HasAt cs n c) :
    takeBytes (n + 1) cs = takeBytes n cs := by
  induction cs generalizing n with
  | nil => cases n <;> rfl
  | cons d cs ih =>
    cases n with
    | zero => exact absurd ⟨[], cs, rfl, rfl⟩ (h d)
    | succ n =>
      rw [takeBytes, takeBytes]
      congr 1
      by_cases hd : d.utf8Size ≤ n + 1
      · -- the offset lies behind `d`, so nothing begins there in the rest of the text either
        rw [Nat.succ_sub hd]
        apply ih
        intro c hc
        have hshifted := hc.append_left [d]
        rw [byteLength_cons, byteLength_nil, Nat.add_zero, Nat.add_sub_cancel' hd] at hshifted
        exact h c hshifted
      · -- the offset and the one after it both end up at the end of `d`
        rw [Nat.sub_eq_zero_of_le (by omega), Nat.sub_eq_zero_of_le (by omega)]

theorem count_takeBytes (cs : List Char) (c : Char) (n : Nat) :
    (takeBytes n cs).count c = Nat.count (HasAt cs · c) n := by
  induction n with
  | zero => rw [takeBytes, List.count_nil, Nat.count_zero]
  | succ n ih =>
    rw [Nat.count_succ, ← ih]
    by_cases hstart : ∃ d, HasAt cs n d
    · obtain ⟨d, hd⟩ := hstart
      have hsame : HasAt cs n c ↔ d = c := ⟨hd.unique, fun h => h ▸ hd⟩
      rw [hd.takeBytes_succ, List.count_append, List.count_singleton]
      simp only [hsame, beq_iff_eq]
    · rw [takeBytes_succ_of_not_hasAt (not_exists.mp hstart), if_neg fun hc => hstart ⟨c, hc⟩,
        Nat.add_zero]

/-- Of two different offsets between characters, a character begins at the lesser one. -/
theorem exists_hasAt_of_isBoundary {m : Nat} (hm : isBoundary cs m = true)
    (hn : isBoundary cs n = true) (hlt : m < n) : ∃ c, HasAt cs m c := by
  obtain ⟨front, middle, rest, rfl, hfront, hmiddle⟩ := exists_parts_of_isBoundary hm hn hlt.le
  cases middle with
  | nil =>
    rw [byteLength_nil] at hmiddle
    omega
  | cons c middle => exact ⟨c, front, middle ++ rest, rfl, hfront⟩

end

/-! ## The order of positions -/

namespace Position

/-- Positions compare by line, and by column within a line. -/
def key (p : Position) : ℕ ×ₗ ℕ := toLex (p.line, p.column)

theorem key_injective : Function.Injective key := by
  rintro ⟨line, column⟩ ⟨line', column'⟩ h
  simpa [key] using h

instance : LinearOrder Position := LinearOrder.lift' key key_injective

theorem lt_iff {p q : Position} : p < q ↔ p.line < q.line ∨ p.line = q.line ∧ p.column < q.column :=
  Prod.Lex.toLex_lt_toLex

theorem lt_advance (p : Position) (c : Char) : p < p.advance c := by
  rw [lt_iff, advance]
  split
  · exact .inl (Nat.lt_succ_self _)
  · exact .inr ⟨rfl, Nat.lt_succ_self _⟩

theorem line_foldl_advance (p : Position) (cs : List Char) :
    (cs.foldl advance p).line = p.line + cs.count '\n' := by
  induction cs generalizing p with
  | nil => rfl
  | cons c cs ih =>
    rw [List.foldl_cons, ih, List.count_cons]
    by_cases hc : c = '\n'
    · simp [advance, hc]
      omega
    · simp [advance, hc]

/-- Only the characters that begin before the offset are passed. -/
theorem after_eq_foldl (p : Position) (n : Nat) (cs : List Char) :
    p.after n cs = (takeBytes n cs).foldl advance p := by
  induction cs generalizing p n with
  | nil => cases n <;> rfl
  | cons c cs ih =>
    cases n with
    | zero => rfl
    | succ n => rw [after, takeBytes, List.foldl_cons, ih]

end Position

/-! ## Positions of growing offsets -/

variable {cs : List Char} {a b n : Nat} {c : Char}

theorem positionOf_eq_foldl (cs : List Char) (n : Nat) :
    positionOf cs n = (takeBytes n cs).foldl Position.advance .first :=
  Position.after_eq_foldl ..

theorem line_positionOf (cs : List Char) (n : Nat) :
    (positionOf cs n).line = (takeBytes n cs).count '\n' + 1 := by
  rw [positionOf_eq_foldl, Position.line_foldl_advance, Nat.add_comm]
  rfl

theorem HasAt.positionOf_succ (h : HasAt cs n c) :
    positionOf cs (n + 1) = (positionOf cs n).advance c := by
  rw [positionOf_eq_foldl, h.takeBytes_succ, List.foldl_concat, ← positionOf_eq_foldl]

theorem positionOf_succ_of_not_hasAt (h : ∀ c, ¬HasAt cs n c) :
    positionOf cs (n + 1) = positionOf cs n := by
  rw [positionOf_eq_foldl, takeBytes_succ_of_not_hasAt h, ← positionOf_eq_foldl]

theorem monotone_positionOf (cs : List Char) : Monotone (positionOf cs) := by
  apply monotone_nat_of_le_succ
  intro n
  by_cases hstart : ∃ c, HasAt cs n c
  · obtain ⟨c, hc⟩ := hstart
    rw [hc.positionOf_succ]
    exact (Position.lt_advance _ c).le
  · rw [positionOf_succ_of_not_hasAt (not_exists.mp hstart)]

theorem HasAt.positionOf_lt (h : HasAt cs n c) (ha : a ≤ n) (hb : n < b) :
    positionOf cs a < positionOf cs b :=
  calc positionOf cs a
    _ ≤ positionOf cs n := monotone_positionOf cs ha
    _ < (positionOf cs n).advance c := Position.lt_advance _ c
    _ = positionOf cs (n + 1) := h.positionOf_succ.symm
    _ ≤ positionOf cs b := monotone_positionOf cs hb

theorem positionOf_eq_of_not_hasAt (hab : a ≤ b) (h : ∀ k c, a ≤ k → k < b → ¬HasAt cs k c) :
    positionOf cs a = positionOf cs b := by
  induction b, hab using Nat.le_induction with
  | base => rfl
  | succ b hab ih =>
    rw [positionOf_succ_of_not_hasAt fun c => h b c hab (Nat.lt_succ_self b)]
    exact ih fun k c hak hkb => h k c hak (Nat.lt_succ_of_lt hkb)

theorem strictMonoOn_positionOf (cs : List Char) :
    StrictMonoOn (positionOf cs) {n | isBoundary cs n = true} := by
  intro m hm n hn hmn
  obtain ⟨c, hc⟩ := exists_hasAt_of_isBoundary hm hn hmn
  exact hc.positionOf_lt le_rfl hmn

/-- Positions are in the order of the offsets, and equal exactly if no character begins from the one
offset up to the other. Different offsets between characters have different positions. The line
counts the line feeds that begin before the offset. This also holds for offsets past the end. -/
theorem positions_identify_offsets (cs : List Char) :
    (∀ a b, a ≤ b → positionOf cs a ≤ positionOf cs b ∧
      (positionOf cs a = positionOf cs b ↔ ∀ k c, a ≤ k → k < b → ¬HasAt cs k c)) ∧
    Set.InjOn (positionOf cs) {n | isBoundary cs n = true} ∧
    ∀ n, (positionOf cs n).line = 1 + Nat.count (HasAt cs · '\n') n := by
  refine ⟨fun a b hab => ⟨monotone_positionOf cs hab, ?_, positionOf_eq_of_not_hasAt hab⟩,
    (strictMonoOn_positionOf cs).injOn, fun n => ?_⟩
  · intro heq k c hak hkb hc
    exact (hc.positionOf_lt hak hkb).ne heq
  · rw [line_positionOf, count_takeBytes, Nat.add_comm]

/-- The offset 1 lies inside the first character, and the column falls behind the line feed at 2. -/
theorem positions_identify_offsets_accented :
    let text := "é\n→a".toList
    (∀ k c, 1 ≤ k → k < 2 → ¬HasAt text k c) ∧
      positionOf text 2 ≤ positionOf text 3 ∧
      (positionOf text 3).column < (positionOf text 2).column ∧
      positionOf text 3 ≠ positionOf text 6 ∧
      (positionOf text 4).line = 1 + Nat.count (HasAt text · '\n') 4 := by
  intro text
  obtain ⟨horder, hdistinct, hline⟩ := positions_identify_offsets text
  have hinside : positionOf text 1 = positionOf text 2 := by decide
  refine ⟨(horder 1 2 (by decide)).2.mp hinside, (horder 2 3 (by decide)).1, by decide, ?_, hline 4⟩
  exact hdistinct.ne (show isBoundary text 3 = true by decide)
    (show isBoundary text 6 = true by decide) (by decide)

end SignatureInference.Text
