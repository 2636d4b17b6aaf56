import Mathlib.Logic.Relation
import Mathlib.Order.Bounds.Basic
import SignatureInference.Proofs.Source.Insertion
import SignatureInference.Proofs.Text.Bytes

/-! # Brackets and what closes them

A bracket is closed where the brackets of its kind are for the first time as many closing as opening
ones, whatever else stands between. Brackets are ASCII, so the search may go by characters or by
bytes. On its way it counts the brackets that are open, and there is one whenever a bracket is
closed.
-/
namespace SignatureInference.Source

open Text

def bracketKinds : List (Char × Char) := [('(', ')'), ('\x7b', '\x7d'), ('[', ']')]

theorem closer?_eq_some_iff {o c : Char} : closer? o = some c ↔ (o, c) ∈ bracketKinds := by
  constructor
  · intro h
    unfold closer? at h
    split at h <;> cases h <;> decide
  · intro h
    simp only [bracketKinds, List.mem_cons, Prod.mk.injEq, List.not_mem_nil, or_false] at h
    obtain ⟨rfl, rfl⟩ | ⟨rfl, rfl⟩ | ⟨rfl, rfl⟩ := h <;> rfl

theorem size_of_closer? {o c : Char} (h : closer? o = some c) :
    o.utf8Size = 1 ∧ c.utf8Size = 1 := by
  rw [closer?_eq_some_iff] at h
  simp only [bracketKinds, List.mem_cons, Prod.mk.injEq, List.not_mem_nil, or_false] at h
  obtain ⟨rfl, rfl⟩ | ⟨rfl, rfl⟩ | ⟨rfl, rfl⟩ := h <;> decide

def countIn (bs : List UInt8) (start stop : Nat) (b : UInt8) : Nat :=
  ((bs.take stop).drop start).count b

/-! ## Searching by bytes -/

/-- The offset of the closing bracket that brings `depth` to zero, in bytes that begin at offset
`pos`. -/
def closingByte (o c : UInt8) (depth pos : Nat) : List UInt8 → Option Nat
  | [] => none
  | b :: bs =>
    if b = o then closingByte o c (depth + 1) (pos + 1) bs
    else if b = c then
      if depth ≤ 1 then some pos else closingByte o c (depth - 1) (pos + 1) bs
    else closingByte o c depth (pos + 1) bs

theorem closingByte_append {o c : UInt8} {front : List UInt8} (ho : o ∉ front) (hc : c ∉ front)
    (depth pos : Nat) (bs : List UInt8) :
    closingByte o c depth pos (front ++ bs) = closingByte o c depth (pos + front.length) bs := by
  induction front generalizing pos with
  | nil => rfl
  | cons b front ih =>
    rw [List.mem_cons, not_or] at ho hc
    rw [List.cons_append, closingByte, if_neg (Ne.symm ho.1), if_neg (Ne.symm hc.1), ih ho.2 hc.2,
      List.length_cons, Nat.add_assoc, Nat.add_comm 1]

/-- No bracket is found inside a character of several bytes. -/
theorem closingFrom_eq_closingByte {o c : Char} (ho : o.utf8Size = 1) (hc : c.utf8Size = 1)
    (depth pos : Nat) (cs : List Char) :
    closingFrom o c depth pos cs = closingByte o.toUInt8 c.toUInt8 depth pos (bytes cs) := by
  induction cs generalizing depth pos with
  | nil => rfl
  | cons x cs ih =>
    by_cases hx : x.utf8Size = 1
    · rw [bytes_cons_ascii hx, closingFrom, closingByte, hx]
      simp only [toUInt8_inj hx ho, toUInt8_inj hx hc, ih]
    · have hout : ∀ {d : Char}, d.utf8Size = 1 → d.toUInt8 ∉ String.utf8EncodeChar x :=
        fun hd hmem =>
        ne_toUInt8_of_le (le_of_mem_utf8EncodeChar hx hmem) hd rfl
      have hne : ∀ {d : Char}, d.utf8Size = 1 → x ≠ d := fun hd heq => hx (heq ▸ hd)
      rw [bytes_cons, closingByte_append (hout ho) (hout hc), String.length_utf8EncodeChar, ← ih,
        closingFrom, if_neg (hne ho), if_neg (hne hc)]

theorem isLeast_add_iff {p q : Nat → Prop} {n i : Nat} (hlow : ∀ j, p j → n ≤ j)
    (hadd : ∀ k, p (k + n) ↔ q k) :
    IsLeast {j | p j} i ↔ ∃ k, i = k + n ∧ IsLeast {k | q k} k := by
  constructor
  · rintro ⟨hi, hleast⟩
    obtain ⟨k, rfl⟩ := Nat.exists_eq_add_of_le' (hlow i hi)
    exact ⟨k, rfl, (hadd k).mp hi, fun j hj =>
      Nat.le_of_add_le_add_right (hleast ((hadd j).mpr hj))⟩
  · rintro ⟨k, rfl, hk, hleast⟩
    refine ⟨(hadd k).mpr hk, fun j hj => ?_⟩
    obtain ⟨m, rfl⟩ := Nat.exists_eq_add_of_le' (hlow j hj)
    exact Nat.add_le_add_right (hleast ((hadd m).mp hj)) n

/-- A byte up to which `depth` brackets before and the ones that are opened are all closed. -/
def Evens (o c : UInt8) (depth : Nat) (bs : List UInt8) (k : Nat) : Prop :=
  k < bs.length ∧ depth + (bs.take (k + 1)).count o = (bs.take (k + 1)).count c

section

variable {o c b : UInt8} {depth depth' k : Nat} {bs : List UInt8}

theorem evens_zero_iff (hne : o ≠ c) (hdepth : 0 < depth) :
    Evens o c depth (b :: bs) 0 ↔ b = c ∧ depth = 1 := by
  simp only [Evens, List.length_cons, Nat.zero_lt_succ, true_and, List.take_succ_cons,
    List.take_zero, List.count_cons, List.count_nil, beq_iff_eq]
  constructor
  · intro h
    split at h <;> split at h <;> simp_all
  · rintro ⟨rfl, rfl⟩
    simp [hne.symm]

theorem evens_succ_opening (hne : o ≠ c) :
    Evens o c depth (o :: bs) (k + 1) ↔ Evens o c (depth + 1) bs k := by
  simp only [Evens, List.length_cons, Nat.add_lt_add_iff_right, List.take_succ_cons,
    List.count_cons_self, List.count_cons_of_ne hne]
  omega

theorem evens_succ_closing (hne : o ≠ c) (hdepth : 0 < depth) :
    Evens o c depth (c :: bs) (k + 1) ↔ Evens o c (depth - 1) bs k := by
  simp only [Evens, List.length_cons, Nat.add_lt_add_iff_right, List.take_succ_cons,
    List.count_cons_self, List.count_cons_of_ne hne.symm]
  omega

theorem evens_succ_other (ho : b ≠ o) (hc : b ≠ c) :
    Evens o c depth (b :: bs) (k + 1) ↔ Evens o c depth bs k := by
  simp only [Evens, List.length_cons, Nat.add_lt_add_iff_right, List.take_succ_cons,
    List.count_cons_of_ne ho, List.count_cons_of_ne hc]

theorem isLeast_evens_cons {pos q : Nat} (hzero : ¬Evens o c depth (b :: bs) 0)
    (hsucc : ∀ k, Evens o c depth (b :: bs) (k + 1) ↔ Evens o c depth' bs k) :
    (∃ k, q = pos + 1 + k ∧ IsLeast {j | Evens o c depth' bs j} k) ↔
      ∃ k, q = pos + k ∧ IsLeast {j | Evens o c depth (b :: bs) j} k := by
  have hlow : ∀ j, Evens o c depth (b :: bs) j → 1 ≤ j := fun j hj =>
    Nat.one_le_iff_ne_zero.mpr fun h => hzero (h ▸ hj)
  simp only [isLeast_add_iff hlow hsucc]
  constructor
  · rintro ⟨k, rfl, hk⟩
    exact ⟨k + 1, by omega, k, rfl, hk⟩
  · rintro ⟨_, rfl, k, rfl, hk⟩
    exact ⟨k, by omega, hk⟩

/-- The search finds the first byte up to which everything is closed. -/
theorem closingByte_eq_some_iff (hne : o ≠ c) (hdepth : 0 < depth) {pos q : Nat} :
    closingByte o c depth pos bs = some q ↔ ∃ k, q = pos + k ∧
      IsLeast {j | Evens o c depth bs j} k := by
  induction bs generalizing depth pos with
  | nil =>
    constructor
    · intro h
      cases h
    · rintro ⟨k, -, ⟨hk, -⟩, -⟩
      cases hk
  | cons b bs ih =>
    rw [closingByte]
    by_cases ho : b = o
    · subst ho
      rw [if_pos rfl, ih (Nat.succ_pos depth)]
      refine isLeast_evens_cons ?_ fun k => evens_succ_opening hne
      rw [evens_zero_iff hne hdepth]
      exact fun h => hne h.1
    rw [if_neg ho]
    by_cases hc : b = c
    · subst hc
      rw [if_pos rfl]
      by_cases hone : depth ≤ 1
      · have heven : IsLeast {j | Evens o b depth (b :: bs) j} 0 :=
          ⟨(evens_zero_iff hne hdepth).mpr ⟨rfl, by omega⟩, fun j _ => Nat.zero_le j⟩
        rw [if_pos hone, Option.some.injEq]
        constructor
        · rintro rfl
          exact ⟨0, rfl, heven⟩
        · rintro ⟨k, rfl, hk⟩
          rw [hk.unique heven, Nat.add_zero]
      · rw [if_neg hone, ih (by omega)]
        refine isLeast_evens_cons ?_ fun k => evens_succ_closing hne hdepth
        rw [evens_zero_iff hne hdepth]
        omega
    · rw [if_neg hc, ih hdepth]
      refine isLeast_evens_cons ?_ fun k => evens_succ_other ho hc
      rw [evens_zero_iff hne hdepth]
      exact fun h => hc h.1

end

/-! ## Searching a text -/

theorem hasAt_cons_iff {x d : Char} {cs : List Char} {n : Nat} :
    HasAt (x :: cs) n d ↔ n = 0 ∧ x = d ∨ x.utf8Size ≤ n ∧ HasAt cs (n - x.utf8Size) d := by
  constructor
  · rintro ⟨front, rest, hcut, rfl⟩
    cases front with
    | nil =>
      obtain ⟨rfl, rfl⟩ := List.cons.inj hcut
      exact .inl ⟨rfl, rfl⟩
    | cons y front =>
      obtain ⟨rfl, rfl⟩ := List.cons.inj hcut
      exact .inr ⟨by simp, front, rest, rfl, by simp⟩
  · rintro (⟨rfl, rfl⟩ | ⟨hle, h⟩)
    · exact ⟨[], cs, rfl, rfl⟩
    · have h := h.append_left [x]
      rwa [byteLength_cons, byteLength_nil, Nat.add_zero, Nat.add_sub_cancel' hle] at h

theorem getElem?_bytes_iff {d : Char} (hd : d.utf8Size = 1) {cs : List Char} {n : Nat} :
    (bytes cs)[n]? = some d.toUInt8 ↔ HasAt cs n d := by
  induction cs generalizing n with
  | nil =>
    refine ⟨fun h => (by simp at h), fun h => ?_⟩
    exact absurd h.mem List.not_mem_nil
  | cons x cs ih =>
    rw [hasAt_cons_iff, bytes_cons, List.getElem?_append, String.length_utf8EncodeChar]
    by_cases hlt : n < x.utf8Size
    · rw [if_pos hlt]
      by_cases hx : x.utf8Size = 1
      · obtain rfl : n = 0 := by omega
        have hsingle : String.utf8EncodeChar x = [x.toUInt8] :=
          String.utf8EncodeChar_eq_singleton hx
        rw [hsingle, List.getElem?_cons_zero, Option.some.injEq, toUInt8_inj hx hd]
        simp [hx]
      · constructor
        · intro h
          exact absurd rfl
            (ne_toUInt8_of_le (le_of_mem_utf8EncodeChar hx (List.mem_of_getElem? h)) hd)
        · rintro (⟨-, rfl⟩ | ⟨hle, -⟩)
          · exact absurd hd hx
          · omega
    · rw [if_neg hlt, ih]
      have hpos := x.utf8Size_pos
      constructor
      · exact fun h => .inr ⟨by omega, h⟩
      · rintro (⟨rfl, -⟩ | ⟨-, h⟩)
        · omega
        · exact h

theorem countIn_append (front rest : List UInt8) (n : Nat) (b : UInt8) :
    countIn (front ++ rest) front.length (front.length + n) b = (rest.take n).count b := by
  rw [countIn, List.drop_take, List.drop_left, Nat.add_sub_cancel_left]

theorem findClosing_eq_some_iff {front rest : List Char} {o c : Char} {i : Nat}
    (h : closer? o = some c) :
    findClosing (front ++ o :: rest) (byteLength front) = some i ↔
      IsLeast {j | byteLength front < j ∧ j < (bytes (front ++ o :: rest)).length ∧
        countIn (bytes (front ++ o :: rest)) (byteLength front) (j + 1) o.toUInt8 =
          countIn (bytes (front ++ o :: rest)) (byteLength front) (j + 1) c.toUInt8} i := by
  obtain ⟨ho, hc⟩ := size_of_closer? h
  have hne : o.toUInt8 ≠ c.toUInt8 := fun heq => closer?_ne h ((toUInt8_inj ho hc).mp heq)
  have hbytes : bytes (front ++ o :: rest) = bytes front ++ o.toUInt8 :: bytes rest := by
    rw [bytes_append, bytes_cons_ascii ho]
  have hcount : ∀ k b, countIn (bytes (front ++ o :: rest)) (byteLength front)
    (k + (byteLength front + 1) + 1) b =
      (o.toUInt8 :: (bytes rest).take (k + 1)).count b := by
    intro k b
    rw [hbytes, ← length_bytes, show k + ((bytes front).length + 1) + 1 =
      (bytes front).length + (k + 2) by omega, countIn_append, List.take_succ_cons]
  rw [findClosing_eq h, closingFrom_eq_closingByte ho hc, bytes_cons_ascii ho,
    closingByte, if_pos rfl, closingByte_eq_some_iff hne Nat.one_pos]
  rw [isLeast_add_iff (q := Evens o.toUInt8 c.toUInt8 1 (bytes rest)) (n := byteLength front + 1)]
  · constructor
    · rintro ⟨k, rfl, hk⟩
      exact ⟨k, by omega, hk⟩
    · rintro ⟨k, rfl, hk⟩
      exact ⟨k, by omega, hk⟩
  · exact fun j hj => hj.1
  · intro k
    simp only [hcount, Evens, List.count_cons_self, List.count_cons_of_ne hne]
    simp only [hbytes, List.length_append, List.length_cons, length_bytes]
    omega

/-! ## The counter -/

/-- A search on its way: the number of brackets that are open, and where it is. -/
structure BracketSearch where
  depth : Nat
  pos : Nat
  rest : List Char

inductive BracketSearch.Step (o c : Char) : BracketSearch → BracketSearch → Prop
  | opens {depth pos : Nat} {cs : List Char} :
      Step o c ⟨depth, pos, o :: cs⟩ ⟨depth + 1, pos + o.utf8Size, cs⟩
  | closes {depth pos : Nat} {cs : List Char} (hdepth : ¬depth ≤ 1) :
      Step o c ⟨depth, pos, c :: cs⟩ ⟨depth - 1, pos + c.utf8Size, cs⟩
  | passes {depth pos : Nat} {x : Char} {cs : List Char} (ho : x ≠ o) (hc : x ≠ c) :
      Step o c ⟨depth, pos, x :: cs⟩ ⟨depth, pos + x.utf8Size, cs⟩

def Visits (text : List Char) (start : Nat) (o c : Char) (s : BracketSearch) : Prop :=
  ∃ front rest, text = front ++ o :: rest ∧ byteLength front = start ∧ closer? o = some c ∧
    Relation.ReflTransGen (BracketSearch.Step o c) ⟨0, start, o :: rest⟩ s

theorem BracketSearch.Step.closingFrom_eq {o c : Char} (hne : o ≠ c) {s s' : BracketSearch}
    (h : Step o c s s') :
    closingFrom o c s.depth s.pos s.rest = closingFrom o c s'.depth s'.pos s'.rest := by
  cases h with
  | opens => rw [closingFrom, if_pos rfl]
  | closes hdepth => rw [closingFrom, if_neg hne.symm, if_pos rfl, if_neg hdepth]
  | passes ho hc => rw [closingFrom, if_neg ho, if_neg hc]

/-- The counter is the number of brackets that were opened less that of those that were closed, and
it is not zero behind the first one. -/
theorem BracketSearch.invariant {o c : Char} (hne : o ≠ c) {start : Nat} {cs : List Char}
    {s : BracketSearch} (h : Relation.ReflTransGen (Step o c) ⟨0, start, o :: cs⟩ s) :
    ∃ passed, o :: cs = passed ++ s.rest ∧ s.pos = start + byteLength passed ∧
      s.depth + passed.count c = passed.count o ∧ (passed = [] ∨ 0 < s.depth) := by
  induction h with
  | refl => exact ⟨[], rfl, rfl, rfl, .inl rfl⟩
  | tail _ hstep ih =>
    obtain ⟨passed, hcut, hpos, hcount, hdepth⟩ := ih
    -- one character more has been passed
    have hnext : ∀ x, byteLength (passed ++ [x]) = byteLength passed + x.utf8Size := by simp
    cases hstep with
    | opens =>
      dsimp only at hcut hpos hcount ⊢
      refine ⟨passed ++ [o], by simpa using hcut, by rw [hpos, hnext, Nat.add_assoc], ?_,
        .inr (Nat.succ_pos _)⟩
      rw [List.count_append, List.count_append, List.count_singleton_self,
        List.count_cons_of_ne hne, List.count_nil]
      omega
    | closes hone =>
      dsimp only at hcut hpos hcount ⊢
      refine ⟨passed ++ [c], by simpa using hcut, by rw [hpos, hnext, Nat.add_assoc], ?_,
        .inr (by omega)⟩
      rw [List.count_append, List.count_append, List.count_singleton_self,
        List.count_cons_of_ne hne.symm, List.count_nil]
      omega
    | @passes depth pos x cs' ho hc =>
      dsimp only at hcut hpos hcount hdepth ⊢
      refine ⟨passed ++ [x], by simpa using hcut, by rw [hpos, hnext, Nat.add_assoc], ?_, .inr ?_⟩
      · rw [List.count_append, List.count_append, List.count_cons_of_ne ho,
          List.count_cons_of_ne hc, List.count_nil, List.count_nil]
        exact hcount
      · rcases hdepth with rfl | hdepth
        · exact absurd (List.cons.inj hcut).1.symm ho
        · exact hdepth

theorem count_bytes {d : Char} (hd : d.utf8Size = 1) (cs : List Char) :
    (bytes cs).count d.toUInt8 = cs.count d := by
  induction cs with
  | nil => rfl
  | cons x cs ih =>
    by_cases hx : x.utf8Size = 1
    · simp only [bytes_cons_ascii hx, List.count_cons, ih, beq_iff_eq, toUInt8_inj hx hd]
    · have hout : d.toUInt8 ∉ String.utf8EncodeChar x := fun hmem =>
        ne_toUInt8_of_le (le_of_mem_utf8EncodeChar hx hmem) hd rfl
      have hne : x ≠ d := fun heq => hx (heq ▸ hd)
      rw [bytes_cons, List.count_append, List.count_eq_zero.mpr hout, ih, List.count_cons_of_ne hne,
        Nat.zero_add]

namespace Visits

variable {text : List Char} {start : Nat} {o c : Char} {s : BracketSearch}

/-- The counter of a search is the true difference, so nothing is taken off zero. -/
theorem counter (h : Visits text start o c s) :
    s.depth + countIn (bytes text) start s.pos c.toUInt8 =
      countIn (bytes text) start s.pos o.toUInt8 ∧
      (s.rest.head? = some c → 0 < s.depth) := by
  obtain ⟨front, rest, rfl, rfl, hcloser, hrun⟩ := h
  obtain ⟨ho, hc⟩ := size_of_closer? hcloser
  have hne := closer?_ne hcloser
  obtain ⟨passed, hcut, hpos, hcount, hdepth⟩ := BracketSearch.invariant hne hrun
  have hpassed : ∀ {d : Char}, d.utf8Size = 1 →
      countIn (bytes (front ++ o :: rest)) (byteLength front) s.pos d.toUInt8 = passed.count d := by
    intro d hd
    rw [hcut, bytes_append, bytes_append, hpos, ← length_bytes front, ← length_bytes passed,
      countIn_append, List.take_left, count_bytes hd]
  refine ⟨by rw [hpassed ho, hpassed hc, hcount], fun hhead => ?_⟩
  rcases hdepth with rfl | hdepth
  · rw [List.nil_append] at hcut
    rw [← hcut] at hhead
    exact absurd (Option.some.inj hhead) hne
  · exact hdepth

theorem findClosing_eq (h : Visits text start o c s) :
    findClosing text start = closingFrom o c s.depth s.pos s.rest := by
  obtain ⟨front, rest, rfl, rfl, hcloser, hrun⟩ := h
  rw [Source.findClosing_eq hcloser]
  induction hrun with
  | refl => rfl
  | tail _ hstep ih => rw [ih, hstep.closingFrom_eq (closer?_ne hcloser)]

/-- A search that is not at its end goes on. At its end there is no text left, or the last open
bracket is closed. -/
theorem ends_or_steps (h : Visits text start o c s) :
    s.rest = [] ∨ s.rest.head? = some c ∧ s.depth = 1 ∨ ∃ s', BracketSearch.Step o c s s' := by
  have hclosing := h.counter.2
  obtain ⟨depth, pos, rest⟩ := s
  cases rest with
  | nil => exact .inl rfl
  | cons x cs =>
    by_cases ho : x = o
    · subst ho
      exact .inr (.inr ⟨_, .opens⟩)
    by_cases hc : x = c
    · subst hc
      by_cases hone : depth ≤ 1
      · exact .inr (.inl ⟨rfl, Nat.le_antisymm hone (hclosing rfl)⟩)
      · exact .inr (.inr ⟨_, .closes hone⟩)
    · exact .inr (.inr ⟨_, .passes ho hc⟩)

end Visits

/-- A bracket is closed at the first offset behind it up to which the brackets of its kind are as
many closing as opening ones, and nothing else is closed. While the search goes on, its counter is
the number of brackets that are open: it is not zero when a bracket is closed, and it is one when
the last bracket is. -/
theorem closing_bracket_exact (text : List Char) (start : Nat) :
    (∀ i, findClosing text start = some i ↔
      ∃ o c, (o, c) ∈ bracketKinds ∧ (bytes text)[start]? = some o.toUInt8 ∧
        IsLeast {j | start < j ∧ j < (bytes text).length ∧
          countIn (bytes text) start (j + 1) o.toUInt8 =
            countIn (bytes text) start (j + 1) c.toUInt8} i) ∧
    ∀ o c s, Visits text start o c s →
      findClosing text start = closingFrom o c s.depth s.pos s.rest ∧
      s.depth + countIn (bytes text) start s.pos c.toUInt8 =
        countIn (bytes text) start s.pos o.toUInt8 ∧
      (s.rest.head? = some c → 0 < s.depth) ∧
      (s.rest = [] ∨ s.rest.head? = some c ∧ s.depth = 1 ∨ ∃ s', BracketSearch.Step o c s s') := by
  constructor
  · intro i
    constructor
    · intro h
      obtain ⟨o, c, hat, hcloser⟩ := hasAt_of_findClosing_some h
      refine ⟨o, c, closer?_eq_some_iff.mp hcloser,
        (getElem?_bytes_iff (size_of_closer? hcloser).1).mpr hat, ?_⟩
      obtain ⟨front, rest, rfl, rfl⟩ := hat
      exact (findClosing_eq_some_iff hcloser).mp h
    · rintro ⟨o, c, hkind, hat, hleast⟩
      have hcloser := closer?_eq_some_iff.mpr hkind
      obtain ⟨front, rest, rfl, rfl⟩ := (getElem?_bytes_iff (size_of_closer? hcloser).1).mp hat
      exact (findClosing_eq_some_iff hcloser).mpr hleast
  · intro o c s h
    exact ⟨h.findClosing_eq, h.counter.1, h.counter.2, h.ends_or_steps⟩

theorem closing_bracket_exact_nested :
    let text := "é(a[(ü)b)]".toList
    (bytes text)[2]? = some '('.toUInt8 ∧
      IsLeast {j | 2 < j ∧ j < (bytes text).length ∧
        countIn (bytes text) 2 (j + 1) '('.toUInt8 =
          countIn (bytes text) 2 (j + 1) ')'.toUInt8} 10 ∧
      Visits text 2 '(' ')' ⟨1, 3, "a[(ü)b)]".toList⟩ ∧
      findClosing text 2 = closingFrom '(' ')' 1 3 "a[(ü)b)]".toList := by
  intro text
  obtain ⟨hfound, hvisits⟩ := closing_bracket_exact text 2
  obtain ⟨o, c, hkind, hat, hleast⟩ := (hfound 10).mp (by decide)
  have hvisit : Visits text 2 '(' ')' ⟨1, 3, "a[(ü)b)]".toList⟩ :=
    ⟨['é'], "a[(ü)b)]".toList, rfl, rfl, rfl, .single .opens⟩
  have hopen : (bytes text)[2]? = some '('.toUInt8 := by decide
  have hsame : o = '(' ∧ c = ')' := by
    rw [hopen] at hat
    revert hkind hat
    simp only [bracketKinds, List.mem_cons, Prod.mk.injEq, List.not_mem_nil, or_false]
    rintro (h | ⟨rfl, rfl⟩ | ⟨rfl, rfl⟩) hat
    · exact h
    · exact absurd hat (by decide)
    · exact absurd hat (by decide)
  rw [hsame.1, hsame.2] at hleast
  exact ⟨hopen, hleast, hvisit, (hvisits _ _ _ hvisit).1⟩

end SignatureInference.Source
