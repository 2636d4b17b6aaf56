import SignatureInference.Text.Basic
import Mathlib.Tactic

/-! # Texts cut at byte offsets

An offset that is the length of a beginning of a text lies between two characters, and cutting the
text there gives that beginning and the rest. Offsets inside a longer text are followed through the
insertion of further text: what lies before the insertion stays, what lies behind it moves.
-/
namespace SignatureInference.Text

theorem byteLength_pos {cs : List Char} (h : cs ≠ []) : 0 < byteLength cs := by
  cases cs with
  | nil => exact absurd rfl h
  | cons c cs =>
    have := c.utf8Size_pos
    rw [byteLength_cons]
    omega

theorem byteLength_of_size_one {cs : List Char} (h : ∀ c ∈ cs, c.utf8Size = 1) :
    byteLength cs = cs.length := by
  induction cs with
  | nil => rfl
  | cons c cs ih =>
    rw [byteLength_cons, h c List.mem_cons_self, ih fun d hd => h d (List.mem_cons_of_mem _ hd),
      List.length_cons, Nat.add_comm]

theorem eq_nil_of_byteLength_eq_zero {cs : List Char} (h : byteLength cs = 0) : cs = [] := by
  by_contra hne
  have := byteLength_pos hne
  omega

theorem dropBytes_append (a b : List Char) (n : Nat) :
    dropBytes (byteLength a + n) (a ++ b) = dropBytes n b := by
  induction a with
  | nil => simp
  | cons c cs ih =>
    have hc := c.utf8Size_pos
    obtain ⟨m, hm⟩ : ∃ m, byteLength (c :: cs) + n = m + 1 :=
      ⟨c.utf8Size + byteLength cs + n - 1, by rw [byteLength_cons]; omega⟩
    rw [hm, List.cons_append, dropBytes, ← hm, byteLength_cons]
    rw [show c.utf8Size + byteLength cs + n - c.utf8Size = byteLength cs + n by omega, ih]

theorem takeBytes_append (a b : List Char) (n : Nat) :
    takeBytes (byteLength a + n) (a ++ b) = a ++ takeBytes n b := by
  induction a with
  | nil => simp
  | cons c cs ih =>
    have hc := c.utf8Size_pos
    obtain ⟨m, hm⟩ : ∃ m, byteLength (c :: cs) + n = m + 1 :=
      ⟨c.utf8Size + byteLength cs + n - 1, by rw [byteLength_cons]; omega⟩
    rw [hm, List.cons_append, takeBytes, ← hm, byteLength_cons]
    rw [show c.utf8Size + byteLength cs + n - c.utf8Size = byteLength cs + n by omega, ih,
      List.cons_append]

@[simp] theorem dropBytes_byteLength (a b : List Char) : dropBytes (byteLength a) (a ++ b) = b := by
  have h := dropBytes_append a b 0
  rwa [Nat.add_zero, dropBytes] at h

@[simp] theorem takeBytes_byteLength (a b : List Char) : takeBytes (byteLength a) (a ++ b) = a := by
  have h := takeBytes_append a b 0
  rwa [Nat.add_zero, takeBytes, List.append_nil] at h

theorem takeBytes_dropBytes {l w r : List Char} {start stop : Nat} (hl : byteLength l = start)
    (hw : start + byteLength w = stop) :
    takeBytes (stop - start) (dropBytes start (l ++ (w ++ r))) = w := by
  subst hl hw
  rw [dropBytes_byteLength, Nat.add_sub_cancel_left, takeBytes_byteLength]

theorem dropBytes_succ_byteLength {c : Char} (hc : c.utf8Size = 1) (a b : List Char) :
    dropBytes (byteLength a + 1) (a ++ c :: b) = b := by
  rw [dropBytes_append, dropBytes, hc, Nat.sub_self, dropBytes]

theorem splitAt?_append (a b : List Char) (n : Nat) :
    splitAt? (byteLength a + n) (a ++ b) = (splitAt? n b).map fun p => (a ++ p.1, p.2) := by
  induction a with
  | nil => simp
  | cons c cs ih =>
    have hc := c.utf8Size_pos
    obtain ⟨m, hm⟩ : ∃ m, byteLength (c :: cs) + n = m + 1 :=
      ⟨c.utf8Size + byteLength cs + n - 1, by rw [byteLength_cons]; omega⟩
    have hle : c.utf8Size ≤ m + 1 := by rw [← hm, byteLength_cons]; omega
    rw [hm, List.cons_append, splitAt?, if_pos hle, ← hm, byteLength_cons]
    rw [show c.utf8Size + byteLength cs + n - c.utf8Size = byteLength cs + n by omega, ih]
    simp [Function.comp_def]

@[simp] theorem splitAt?_byteLength (a b : List Char) :
    splitAt? (byteLength a) (a ++ b) = some (a, b) := by
  have h := splitAt?_append a b 0
  rwa [Nat.add_zero, splitAt?_zero, Option.map_some, List.append_nil] at h

theorem eq_append_of_splitAt? {n : Nat} {cs a b : List Char} (h : splitAt? n cs = some (a, b)) :
    cs = a ++ b ∧ byteLength a = n := by
  induction cs generalizing n a with
  | nil =>
    cases n with
    | zero => simp_all [splitAt?]
    | succ n => simp [splitAt?] at h
  | cons c cs ih =>
    cases n with
    | zero =>
      rw [splitAt?_zero, Option.some.injEq, Prod.mk.injEq] at h
      obtain ⟨rfl, rfl⟩ := h
      exact ⟨rfl, rfl⟩
    | succ n =>
      rw [splitAt?] at h
      split at h
      · next hle =>
        obtain ⟨⟨a', b'⟩, hp, he⟩ := Option.map_eq_some_iff.mp h
        obtain ⟨rfl, rfl⟩ := Prod.mk.injEq .. ▸ he
        obtain ⟨hcs, hlen⟩ := ih hp
        refine ⟨by rw [hcs]; rfl, ?_⟩
        rw [byteLength_cons, hlen]
        omega
      · cases h

theorem isBoundary_byteLength (a b : List Char) : isBoundary (a ++ b) (byteLength a) = true := by
  simp [isBoundary]

theorem exists_append_of_isBoundary {cs : List Char} {n : Nat} (h : isBoundary cs n = true) :
    ∃ l r, cs = l ++ r ∧ byteLength l = n := by
  obtain ⟨⟨l, r⟩, hs⟩ := Option.isSome_iff_exists.mp h
  obtain ⟨he, hl⟩ := eq_append_of_splitAt? hs
  exact ⟨l, r, he, hl⟩

theorem exists_append_of_byteLength_le {a b c d : List Char} (h : a ++ b = c ++ d)
    (hle : byteLength a ≤ byteLength c) : ∃ w, c = a ++ w ∧ b = w ++ d := by
  rcases List.append_eq_append_iff.mp h with ⟨w, hc, hb⟩ | ⟨w, ha, hd⟩
  · exact ⟨w, hc, hb⟩
  · have hw : w = [] := by
      rw [ha, byteLength_append] at hle
      exact eq_nil_of_byteLength_eq_zero (by omega)
    subst hw
    exact ⟨[], by simp [ha], by simp [hd]⟩

theorem exists_parts_of_isBoundary {cs : List Char} {start stop : Nat}
    (hstart : isBoundary cs start = true) (hstop : isBoundary cs stop = true) (hle : start ≤ stop) :
    ∃ l w r, cs = l ++ (w ++ r) ∧ byteLength l = start ∧ start + byteLength w = stop := by
  obtain ⟨l, t, rfl, hl⟩ := exists_append_of_isBoundary hstart
  obtain ⟨l', r, hcut, hl'⟩ := exists_append_of_isBoundary hstop
  obtain ⟨w, rfl, rfl⟩ := exists_append_of_byteLength_le hcut (by omega)
  rw [byteLength_append] at hl'
  exact ⟨l, w, r, rfl, hl, by omega⟩

theorem append_inj_of_byteLength {a b c d : List Char} (h : a ++ b = c ++ d)
    (hlen : byteLength a = byteLength c) : a = c ∧ b = d := by
  obtain ⟨w, hc, hb⟩ := exists_append_of_byteLength_le h hlen.le
  have hw : w = [] := by
    rw [hc, byteLength_append] at hlen
    exact eq_nil_of_byteLength_eq_zero (by omega)
  subst hw
  exact ⟨by simpa using hc.symm, by simpa using hb⟩

/-! ## The character at an offset -/

/-- The character that begins at an offset. -/
def HasAt (cs : List Char) (offset : Nat) (c : Char) : Prop :=
  ∃ front rest, cs = front ++ c :: rest ∧ byteLength front = offset

theorem HasAt.unique {cs : List Char} {n : Nat} {c d : Char} (hc : HasAt cs n c)
    (hd : HasAt cs n d) : c = d := by
  obtain ⟨front, rest, rfl, hn⟩ := hc
  obtain ⟨front', rest', h, hn'⟩ := hd
  have := (append_inj_of_byteLength h (hn.trans hn'.symm)).2
  simp_all

theorem HasAt.left {a b : List Char} {n : Nat} {c : Char} (h : HasAt (a ++ b) n c)
    (hn : n < byteLength a) : HasAt a n c := by
  obtain ⟨front, rest, he, hf⟩ := h
  obtain ⟨w, hw, hb⟩ := exists_append_of_byteLength_le he.symm (by omega)
  cases w with
  | nil => simp_all
  | cons d w =>
    obtain ⟨rfl, rfl⟩ : c = d ∧ rest = w ++ b := by simpa using hb
    exact ⟨front, w, hw, hf⟩

theorem HasAt.right {a b : List Char} {n : Nat} {c : Char} (h : HasAt (a ++ b) n c)
    (hn : byteLength a ≤ n) : HasAt b (n - byteLength a) c := by
  obtain ⟨front, rest, he, hf⟩ := h
  obtain ⟨w, rfl, hb⟩ := exists_append_of_byteLength_le he (by omega)
  refine ⟨w, rest, hb, ?_⟩
  rw [byteLength_append] at hf
  omega

theorem HasAt.mem {cs : List Char} {n : Nat} {c : Char} (h : HasAt cs n c) : c ∈ cs := by
  obtain ⟨front, rest, rfl, -⟩ := h
  simp

theorem HasAt.append_left {b : List Char} {n : Nat} {c : Char} (h : HasAt b n c) (a : List Char) :
    HasAt (a ++ b) (byteLength a + n) c := by
  obtain ⟨front, rest, rfl, rfl⟩ := h
  exact ⟨a ++ front, rest, by simp, by simp⟩

theorem HasAt.append_right {a : List Char} {n : Nat} {c : Char} (h : HasAt a n c) (b : List Char) :
    HasAt (a ++ b) n c := by
  obtain ⟨front, rest, rfl, rfl⟩ := h
  exact ⟨front, rest ++ b, by simp, rfl⟩

theorem HasAt.isBoundary {cs : List Char} {n : Nat} {c : Char} (h : HasAt cs n c) :
    isBoundary cs n = true := by
  obtain ⟨l, r, rfl, rfl⟩ := h
  exact isBoundary_byteLength l (c :: r)

theorem HasAt.isBoundary_succ {cs : List Char} {n : Nat} {c : Char} (h : HasAt cs n c)
    (hc : c.utf8Size = 1) : Text.isBoundary cs (n + 1) = true := by
  obtain ⟨l, r, rfl, rfl⟩ := h
  have := isBoundary_byteLength (l ++ [c]) r
  simpa [hc] using this

theorem HasAt.of_range {cs : List Char} {m n k : Nat} {c : Char} (hm : Text.isBoundary cs m = true)
    (hn : Text.isBoundary cs n = true) (hmn : m ≤ n)
    (h : HasAt (takeBytes (n - m) (dropBytes m cs)) k c) : HasAt cs (m + k) c := by
  obtain ⟨l, w, r, rfl, hl, hw⟩ := exists_parts_of_isBoundary hm hn hmn
  rw [takeBytes_dropBytes hl hw] at h
  rw [← hl]
  exact (h.append_right r).append_left l

theorem HasAt.range_eq_cons {cs : List Char} {m n : Nat} {c : Char} (h : HasAt cs m c)
    (hc : c.utf8Size = 1) (hmn : m < n) :
    takeBytes (n - m) (dropBytes m cs) = c :: takeBytes (n - (m + 1)) (dropBytes (m + 1) cs) := by
  obtain ⟨l, r, rfl, rfl⟩ := h
  obtain ⟨k, rfl⟩ := Nat.exists_eq_add_of_lt hmn
  rw [dropBytes_succ_byteLength hc, dropBytes_byteLength,
    show byteLength l + k + 1 - byteLength l = k + 1 by omega, takeBytes, hc]
  congr 2
  omega

theorem HasAt.lt {cs : List Char} {n : Nat} {c : Char} (h : HasAt cs n c) : n < byteLength cs := by
  obtain ⟨front, rest, rfl, rfl⟩ := h
  have : 0 < byteLength (c :: rest) := byteLength_pos (by simp)
  rw [byteLength_append]
  omega

/-! ## Offsets under an insertion -/

/-- Where an offset goes when `length` bytes are put in at `place`. -/
def shift (place length offset : Nat) : Nat := if offset < place then offset else offset + length

section

variable {place length m n : Nat}

theorem shift_of_lt (h : n < place) : shift place length n = n := if_pos h

theorem shift_of_le (h : place ≤ n) : shift place length n = n + length := if_neg (by omega)

theorem shift_lt_shift : shift place length m < shift place length n ↔ m < n := by
  unfold shift
  split <;> split <;> omega

theorem shift_le_shift : shift place length m ≤ shift place length n ↔ m ≤ n := by
  unfold shift
  split <;> split <;> omega

theorem shift_succ (h : n + 1 ≠ place) : shift place length (n + 1) = shift place length n + 1 := by
  unfold shift
  split <;> split <;> omega

end

theorem HasAt.insert {a b : List Char} {n : Nat} {c : Char} (h : HasAt (a ++ b) n c)
    (t : List Char) : HasAt (a ++ (t ++ b)) (shift (byteLength a) (byteLength t) n) c := by
  by_cases hn : n < byteLength a
  · rw [shift_of_lt hn]
    exact (h.left hn).append_right _
  · rw [shift_of_le (by omega)]
    have := ((h.right (by omega)).append_left t).append_left a
    rwa [show byteLength a + (byteLength t + (n - byteLength a)) = n + byteLength t by omega]
      at this

end SignatureInference.Text
