import SignatureInference.Proofs.Text.Offsets
import SignatureInference.Source.Span

/-! # Searching a text into which something was inserted

Text made of identifier characters, backslashes, question marks, blanks and colons holds no bracket
and ends no head of a declaration. Put anywhere into another text, it moves what a search for a
bracket or for the end of a head finds, and changes nothing else.
-/
namespace SignatureInference.Source

open Text

/-- A character of a type, or of the punctuation that sets a type off. -/
def isTypeChar (c : Char) : Bool :=
  isIdentPart c || c == '\\' || c == '?' || c == ' ' || c == ':'

/-- Text that may be put into a declaration: types and what sets them off. -/
def Inert (t : List Char) : Prop := ∀ c ∈ t, isTypeChar c = true

theorem Inert.not_mem {t : List Char} (h : Inert t) {c : Char}
    (hc : isTypeChar c = false) : c ∉ t := by
  intro hm
  rw [h c hm] at hc
  cases hc

/-! ## Brackets -/

section

variable (o c : Char)

theorem closingFrom_add (depth pos k : Nat) (cs : List Char) :
    closingFrom o c depth (pos + k) cs = (closingFrom o c depth pos cs).map (· + k) := by
  induction cs generalizing depth pos with
  | nil => rfl
  | cons d ds ih =>
    simp only [closingFrom, Nat.add_right_comm pos k, ih]
    split
    · rfl
    · split
      · split <;> rfl
      · rfl

theorem le_closingFrom {depth pos q : Nat} {cs : List Char}
    (h : closingFrom o c depth pos cs = some q) : pos ≤ q := by
  induction cs generalizing depth pos with
  | nil => cases h
  | cons d ds ih =>
    rw [closingFrom] at h
    split at h
    · exact Nat.le_of_add_right_le (ih h)
    · split at h
      · split at h
        · cases h
          exact le_rfl
        · exact Nat.le_of_add_right_le (ih h)
      · exact Nat.le_of_add_right_le (ih h)

theorem hasAt_of_closingFrom {depth pos q : Nat} {cs : List Char}
    (h : closingFrom o c depth pos cs = some q) : HasAt cs (q - pos) c := by
  induction cs generalizing depth pos with
  | nil => cases h
  | cons d ds ih =>
    -- the closing bracket lies behind the first character
    have later : ∀ {depth}, closingFrom o c depth (pos + d.utf8Size) ds = some q →
        HasAt (d :: ds) (q - pos) c := by
      intro depth h
      have hle := le_closingFrom o c h
      have := (ih h).append_left [d]
      simpa [show d.utf8Size + (q - (pos + d.utf8Size)) = q - pos by omega] using this
    rw [closingFrom] at h
    split at h
    · exact later h
    · split at h
      · next hd =>
        split at h
        · cases h
          exact ⟨[], ds, by simp [hd], by simp⟩
        · exact later h
      · exact later h

variable {o c}

theorem closingFrom_skip {t : List Char} (ho : o ∉ t) (hc : c ∉ t) (depth pos : Nat)
    (b : List Char) :
    closingFrom o c depth pos (t ++ b) = closingFrom o c depth (pos + byteLength t) b := by
  induction t generalizing pos with
  | nil => rfl
  | cons d ds ih =>
    have hdo : ¬ d = o := fun h => ho (h ▸ List.mem_cons_self)
    have hdc : ¬ d = c := fun h => hc (h ▸ List.mem_cons_self)
    rw [List.cons_append, closingFrom, if_neg hdo, if_neg hdc,
      ih (fun h => ho (List.mem_cons_of_mem _ h)) (fun h => hc (List.mem_cons_of_mem _ h)),
      byteLength_cons, Nat.add_assoc]

theorem closingFrom_insert {t : List Char} (ho : o ∉ t) (hc : c ∉ t) (depth pos : Nat)
    (u b : List Char) :
    closingFrom o c depth pos (u ++ (t ++ b)) =
      (closingFrom o c depth pos (u ++ b)).map (shift (pos + byteLength u) (byteLength t)) := by
  induction u generalizing depth pos with
  | nil =>
    rw [List.nil_append, List.nil_append, closingFrom_skip ho hc, closingFrom_add]
    refine Option.map_congr fun q hq => ?_
    rw [shift_of_le]
    simpa using le_closingFrom o c hq
  | cons d ds ih =>
    have hd := d.utf8Size_pos
    simp only [List.cons_append, closingFrom, ih, byteLength_cons, Nat.add_assoc]
    split
    · rfl
    · split
      · split
        · rw [Option.map_some, shift_of_lt (by omega)]
        · rfl
      · rfl

end

theorem closer?_ne {o c : Char} (h : closer? o = some c) : o ≠ c := by
  rintro rfl
  unfold closer? at h
  split at h <;> simp_all

theorem isTypeChar_of_closer? {o c : Char} (h : closer? o = some c) :
    isTypeChar o = false ∧ isTypeChar c = false := by
  unfold closer? at h
  split at h
  · cases h; decide
  · cases h; decide
  · cases h; decide
  · cases h

theorem findClosing_eq {l r : List Char} {o c : Char} (h : closer? o = some c) :
    findClosing (l ++ o :: r) (byteLength l) = closingFrom o c 0 (byteLength l) (o :: r) := by
  simp [findClosing, h]

theorem findClosing_insert {a b t : List Char} {n : Nat} {o c : Char} (ht : Inert t)
    (hn : HasAt (a ++ b) n o) (h : closer? o = some c) :
    findClosing (a ++ (t ++ b)) (shift (byteLength a) (byteLength t) n) =
      (findClosing (a ++ b) n).map (shift (byteLength a) (byteLength t)) := by
  have hto := ht.not_mem (isTypeChar_of_closer? h).1
  have htc := ht.not_mem (isTypeChar_of_closer? h).2
  by_cases hlt : n < byteLength a
  · obtain ⟨l, r, rfl, rfl⟩ := hn.left hlt
    have hins := closingFrom_insert hto htc 0 (byteLength l) (o :: r) b
    rw [shift_of_lt hlt, List.append_assoc, List.append_assoc, List.cons_append, List.cons_append,
      findClosing_eq h, findClosing_eq h]
    rwa [List.cons_append, List.cons_append, ← byteLength_append] at hins
  · obtain ⟨l, r, rfl, hl⟩ := hn.right (by omega)
    rw [shift_of_le (by omega)]
    have hold := findClosing_eq (l := a ++ l) (r := r) h
    have hnew := findClosing_eq (l := a ++ (t ++ l)) (r := r) h
    simp only [byteLength_append, List.append_assoc] at hold hnew
    rw [show byteLength a + byteLength l = n by omega] at hold
    rw [show byteLength a + (byteLength t + byteLength l) = n + byteLength t by omega] at hnew
    rw [hold, hnew, closingFrom_add]
    refine Option.map_congr fun q hq => ?_
    rw [shift_of_le]
    exact (by omega : byteLength a ≤ n).trans (le_closingFrom o c hq)

theorem hasAt_of_findClosing {text : List Char} {start q : Nat} {o c : Char}
    (ho : HasAt text start o) (hc : closer? o = some c) (h : findClosing text start = some q) :
    HasAt text q c ∧ start < q := by
  obtain ⟨l, r, rfl, rfl⟩ := ho
  rw [findClosing_eq hc] at h
  have hle := le_closingFrom o c h
  have hat := hasAt_of_closingFrom o c h
  have hq := hat.append_left l
  rw [Nat.add_sub_cancel' hle] at hq
  refine ⟨hq, lt_of_le_of_ne hle fun he => ?_⟩
  rw [he, Nat.sub_self] at hat
  exact closer?_ne hc (HasAt.unique ⟨[], r, rfl, rfl⟩ hat)

theorem hasAt_of_findClosing_some {text : List Char} {start q : Nat}
    (h : findClosing text start = some q) :
    ∃ o c, HasAt text start o ∧ closer? o = some c := by
  unfold findClosing at h
  split at h
  · next l o r hs =>
    obtain ⟨rfl, rfl⟩ := eq_append_of_splitAt? hs
    split at h
    · next c hc => exact ⟨o, c, ⟨l, r, rfl, rfl⟩, hc⟩
    · cases h
  · cases h

/-! ## Ends of heads -/

theorem findFrom_add (p : Char → Bool) (pos k : Nat) (cs : List Char) :
    findFrom p (pos + k) cs = (findFrom p pos cs).map fun r => (r.1 + k, r.2) := by
  induction cs generalizing pos with
  | nil => rfl
  | cons d ds ih =>
    simp only [findFrom, Nat.add_right_comm pos k, ih]
    split <;> rfl

theorem le_findFrom {p : Char → Bool} {pos q : Nat} {c : Char} {cs : List Char}
    (h : findFrom p pos cs = some (q, c)) : pos ≤ q := by
  induction cs generalizing pos with
  | nil => cases h
  | cons d ds ih =>
    rw [findFrom] at h
    split at h
    · cases h
      exact le_rfl
    · exact Nat.le_of_add_right_le (ih h)

theorem hasAt_of_findFrom {p : Char → Bool} {pos q : Nat} {c : Char} {cs : List Char}
    (h : findFrom p pos cs = some (q, c)) : HasAt cs (q - pos) c ∧ p c = true := by
  induction cs generalizing pos with
  | nil => cases h
  | cons d ds ih =>
    rw [findFrom] at h
    split at h
    · next hd =>
      cases h
      exact ⟨⟨[], ds, rfl, by simp⟩, hd⟩
    · obtain ⟨hat, hp⟩ := ih h
      have hle := le_findFrom h
      have := hat.append_left [d]
      refine ⟨?_, hp⟩
      simpa [show d.utf8Size + (q - (pos + d.utf8Size)) = q - pos by omega] using this

theorem not_of_lt_findFrom {p : Char → Bool} {pos q n : Nat} {c d : Char} {cs : List Char}
    (h : findFrom p pos cs = some (q, c)) (hd : HasAt cs n d) (hlt : pos + n < q) :
    p d = false := by
  induction cs generalizing pos n with
  | nil => cases h
  | cons e es ih =>
    rw [findFrom] at h
    split at h
    · cases h
      omega
    · next he =>
      obtain ⟨front, rest, heq, hn⟩ := hd
      cases front with
      | nil =>
        obtain ⟨rfl, -⟩ := List.cons.inj heq
        simpa using he
      | cons x front =>
        obtain ⟨rfl, htail⟩ := List.cons.inj heq
        rw [byteLength_cons] at hn
        exact ih h ⟨front, rest, htail, rfl⟩ (by omega)

theorem findFrom_insert {p : Char → Bool} {t : List Char} (ht : ∀ c ∈ t, p c = false) (pos : Nat)
    (u b : List Char) :
    findFrom p pos (u ++ (t ++ b)) =
      (findFrom p pos (u ++ b)).map
        fun r => (shift (pos + byteLength u) (byteLength t) r.1, r.2) := by
  induction u generalizing pos with
  | nil =>
    have skip : ∀ (t : List Char) (pos : Nat), (∀ c ∈ t, p c = false) →
        findFrom p pos (t ++ b) = findFrom p (pos + byteLength t) b := by
      intro t
      induction t with
      | nil => intro pos _; rfl
      | cons d ds ih =>
        intro pos h
        rw [List.cons_append, findFrom, h d List.mem_cons_self, if_neg (by simp),
          ih _ fun c hc => h c (List.mem_cons_of_mem _ hc), byteLength_cons, Nat.add_assoc]
    rw [List.nil_append, List.nil_append, skip t pos ht, findFrom_add]
    refine Option.map_congr fun r hr => ?_
    rw [shift_of_le]
    simpa using le_findFrom (q := r.1) (c := r.2) hr
  | cons d ds ih =>
    have hd := d.utf8Size_pos
    simp only [List.cons_append, findFrom, ih, byteLength_cons, Nat.add_assoc]
    split
    · rw [Option.map_some, shift_of_lt (by omega)]
    · rfl

theorem Inert.endsHead {t : List Char} (h : Inert t) : ∀ c ∈ t, endsHead c = false := by
  intro c hc
  rw [Bool.eq_false_iff]
  intro hends
  have : c = '\x7b' ∨ c = ';' := by simpa [Source.endsHead] using hends
  rcases this with rfl | rfl
  · exact h.not_mem (by decide) hc
  · exact h.not_mem (by decide) hc

end SignatureInference.Source
