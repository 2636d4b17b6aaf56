import SignatureInference.Proofs.Source.Spans
import SignatureInference.Proofs.Text.Lowercase

/-! # Seams

A seam is a place of a masked source together with a text to put there. In front of it, apart from
blanks and a few words that begin no header, stands a comma or a parenthesis; behind it, apart from
blanks, stands a character that begins no header either. Under these conditions the insertion moves
every occurrence of a header that lies behind the seam, leaves those in front of it where they are,
and neither makes nor breaks one.
-/
namespace SignatureInference.Source

open Text

/-- A character that may stand right behind a place where a type goes. -/
def isEdge (d : Char) : Bool := d == '$' || d == '&' || d == '.' || d == '\x7b' || d == ';'

structure Seam where
  front : List Char
  stop : Char
  /-- The words and blanks between the stop and the seam. -/
  lead : List Char
  inserted : List Char
  /-- The blanks between the seam and the edge. -/
  gap : List Char
  edge : Char
  rest : List Char
  isStop_stop : isStop stop = true
  lead_plain : ∀ c ∈ lead, isBlank c = true ∨ isWordChar c = true
  gap_blank : ∀ c ∈ gap, isBlank c = true
  isEdge_edge : isEdge edge = true
  inert : Inert inserted
  lead_silent : ∀ pattern, IsHeader pattern → ∀ z, Silent pattern (some stop) lead z
  inserted_silent : ∀ pattern, IsHeader pattern → ∀ z, z <+: rest →
    Silent pattern (lastOf (some stop) lead) inserted (gap ++ edge :: z)

theorem isEdge_cases {d : Char} (h : isEdge d = true) :
    d = '$' ∨ d = '&' ∨ d = '.' ∨ d = '\x7b' ∨ d = ';' := by
  simpa [isEdge, or_assoc] using h

namespace Seam

variable (σ : Seam)

def left : List Char := σ.front ++ σ.stop :: σ.lead

def right : List Char := σ.gap ++ σ.edge :: σ.rest

/-- The source without the insertion. -/
def before : List Char := σ.left ++ σ.right

def after : List Char := σ.left ++ (σ.inserted ++ σ.right)

def place : Nat := byteLength σ.left

def move (n : Nat) : Nat := shift σ.place (byteLength σ.inserted) n

def moveOccurrence (o : Occurrence) : Occurrence :=
  if o.start < σ.place then o else o.move (byteLength σ.inserted)

variable {σ}

theorem move_of_lt {n : Nat} (h : n < σ.place) : σ.move n = n := shift_of_lt h

theorem move_of_le {n : Nat} (h : σ.place ≤ n) : σ.move n = n + byteLength σ.inserted :=
  shift_of_le h

theorem move_le_move {m n : Nat} : σ.move m ≤ σ.move n ↔ m ≤ n := shift_le_shift

theorem move_lt_move {m n : Nat} : σ.move m < σ.move n ↔ m < n := shift_lt_shift

theorem sub_le_move_sub_move (m n : Nat) : n - m ≤ σ.move n - σ.move m := by
  unfold move shift
  split <;> split <;> omega

theorem length_front_lt : byteLength (σ.front ++ [σ.stop]) ≤ σ.place := by
  simp only [place, left, byteLength_append, byteLength_cons, byteLength_nil]
  omega

theorem beginsKeyword_edge : beginsKeyword σ.edge = false := by
  rcases isEdge_cases σ.isEdge_edge with h | h | h | h | h <;> rw [h] <;> decide

theorem isBlank_edge : isBlank σ.edge = false := by
  rcases isEdge_cases σ.isEdge_edge with h | h | h | h | h <;> rw [h] <;> decide

/-! ## Where other characters stand -/

theorem not_mem_lead {c : Char} (hblank : isBlank c = false) (hword : isWordChar c = false) :
    c ∉ σ.lead := by
  intro hc
  rcases σ.lead_plain c hc with h | h
  · rw [h] at hblank
    cases hblank
  · rw [h] at hword
    cases hword

theorem hasAt_front {n : Nat} {c : Char} (h : HasAt σ.before n c) (hn : n < σ.place)
    (hc : c ≠ σ.stop) (hlead : c ∉ σ.lead) : HasAt σ.front n c := by
  have hleft : HasAt (σ.front ++ σ.stop :: σ.lead) n c := h.left hn
  by_cases hlt : n < byteLength σ.front
  · exact hleft.left hlt
  · have hmem := (hleft.right (by omega)).mem
    rcases List.mem_cons.mp hmem with h | h
    · exact absurd h hc
    · exact absurd h hlead

theorem hasAt_front_of_isBreak {n : Nat} {c : Char} (h : HasAt σ.before n c) (hn : n < σ.place)
    (hc : isBreak c = true) : HasAt σ.front n c := by
  refine hasAt_front h hn ?_ ?_
  · rintro rfl
    have hs := σ.isStop_stop
    rcases isBreak_cases hc with h | h | h <;> rw [h] at hs <;> exact absurd hs (by decide)
  · rcases isBreak_cases hc with h | h | h <;> rw [h] <;> exact not_mem_lead (by decide) (by decide)

theorem move_succ_of_isBreak {n : Nat} {c : Char} (h : HasAt σ.before n c) (hc : isBreak c = true) :
    σ.move (n + 1) = σ.move n + 1 := by
  refine shift_succ fun he => ?_
  have hlt := (hasAt_front_of_isBreak h (by omega) hc).lt
  have hle : byteLength (σ.front ++ [σ.stop]) ≤ σ.place := length_front_lt
  have hpos := σ.stop.utf8Size_pos
  rw [byteLength_append, byteLength_cons] at hle
  omega

theorem hasAt_place {c : Char} (h : HasAt σ.before σ.place c) : isBlank c = true ∨ c = σ.edge := by
  obtain ⟨front, rest, he, hf⟩ := h.right le_rfl
  rw [place, Nat.sub_self] at hf
  rw [eq_nil_of_byteLength_eq_zero hf, List.nil_append, right] at he
  cases hg : σ.gap with
  | nil =>
    rw [hg] at he
    exact .inr (List.cons.inj he).1.symm
  | cons d ds =>
    rw [hg] at he
    rw [← (List.cons.inj he).1]
    exact .inl (σ.gap_blank d (hg ▸ List.mem_cons_self))

theorem ne_place {n : Nat} {c : Char} (h : HasAt σ.before n c) (hblank : isBlank c = false)
    (hedge : isEdge c = false) : n ≠ σ.place := by
  rintro rfl
  rcases hasAt_place h with hc | rfl
  · rw [hc] at hblank
    cases hblank
  · rw [σ.isEdge_edge] at hedge
    cases hedge

theorem exists_edge {x r : List Char} {c : Char} (hx : σ.right = x ++ c :: r)
    (hblank : isBlank c = false) (hedge : c ≠ σ.edge) :
    ∃ y, x = σ.gap ++ σ.edge :: y ∧ σ.rest = y ++ c :: r := by
  rw [right] at hx
  rcases List.append_eq_append_iff.mp hx with ⟨w, hw, he⟩ | ⟨w, hw, he⟩
  · cases w with
    | nil => exact absurd (List.cons.inj he).1.symm hedge
    | cons d w =>
      obtain ⟨rfl, hrest⟩ := List.cons.inj he
      exact ⟨w, hw, hrest⟩
  · cases w with
    | nil => exact absurd (List.cons.inj he).1 hedge
    | cons d w =>
      have hd : d ∈ σ.gap := hw ▸ List.mem_append_right _ List.mem_cons_self
      rw [(List.cons.inj he).1, σ.gap_blank d hd] at hblank
      cases hblank

theorem exists_edge_of_hasAt {v : List Char} {n : Nat} {c : Char} (hv : v <+: σ.right)
    (hn : σ.place + byteLength v = n) (h : HasAt σ.before n c) (hblank : isBlank c = false)
    (hedge : isEdge c = false) : ∃ z, v = σ.gap ++ σ.edge :: z ∧ z <+: σ.rest := by
  obtain ⟨r, hr⟩ := hv
  have hleft : byteLength σ.left ≤ n := hn ▸ Nat.le_add_right σ.place _
  obtain ⟨front, rest, he, hf⟩ := h.right hleft
  obtain ⟨-, rfl⟩ := append_inj_of_byteLength (hr.trans he) (by
    rw [hf]
    unfold place at hn
    omega)
  have hne : c ≠ σ.edge := by
    rintro rfl
    rw [σ.isEdge_edge] at hedge
    cases hedge
  obtain ⟨z, hz, hrest⟩ := exists_edge hr.symm hblank hne
  exact ⟨z, hz, _, hrest.symm⟩

/-! ## Occurrences -/

theorem exists_cons (z : List Char) :
    ∃ c cs, σ.gap ++ σ.edge :: z = c :: cs ∧ beginsKeyword c = false := by
  cases hg : σ.gap with
  | nil => exact ⟨_, _, rfl, beginsKeyword_edge⟩
  | cons d ds =>
    exact ⟨_, _, rfl, beginsKeyword_of_isBlank (σ.gap_blank d (hg ▸ List.mem_cons_self))⟩

section

variable {pattern : Option Char → List Char → Option Found}

/-- The occurrences around a seam, where the text searched begins with `u` and goes on to `z`. -/
theorem occurrencesFrom_before (h : IsHeader pattern) (previous : Option Char) (pos : Nat)
    (u z : List Char) :
    occurrencesFrom pattern previous pos 0 (u ++ σ.stop :: (σ.lead ++ (σ.gap ++ σ.edge :: z))) =
      occurrencesFrom pattern previous pos 0 (u ++ [σ.stop]) ++
        occurrencesFrom pattern none (pos + byteLength (u ++ σ.stop :: σ.lead)) 0
          (σ.gap ++ σ.edge :: z) := by
  obtain ⟨c, cs, he, hc⟩ := σ.exists_cons z
  rw [h.occurrencesFrom_stop σ.isStop_stop _ _ _ (by omega),
    occurrencesFrom_silent _ (σ.lead_silent _ h _), he, h.occurrencesFrom_previous _ none _ hc]
  congr 2
  simp only [byteLength_append, byteLength_cons, byteLength_nil]
  omega

theorem occurrencesFrom_after (h : IsHeader pattern) (previous : Option Char) (pos : Nat)
    (u : List Char) {z : List Char} (hz : z <+: σ.rest) :
    occurrencesFrom pattern previous pos 0
        (u ++ σ.stop :: (σ.lead ++ (σ.inserted ++ (σ.gap ++ σ.edge :: z)))) =
      occurrencesFrom pattern previous pos 0 (u ++ [σ.stop]) ++
        (occurrencesFrom pattern none (pos + byteLength (u ++ σ.stop :: σ.lead)) 0
          (σ.gap ++ σ.edge :: z)).map (Occurrence.move (byteLength σ.inserted)) := by
  obtain ⟨c, cs, he, hc⟩ := σ.exists_cons z
  rw [h.occurrencesFrom_stop σ.isStop_stop _ _ _ (by omega),
    occurrencesFrom_silent _ (σ.lead_silent _ h _),
    occurrencesFrom_silent _ (σ.inserted_silent _ h z hz), he,
    h.occurrencesFrom_previous _ none _ hc, ← occurrencesFrom_add]
  congr 2
  simp only [byteLength_append, byteLength_cons, byteLength_nil]
  omega

/-- An insertion moves the occurrences behind it. -/
theorem occurrencesFrom_insert (h : IsHeader pattern) (previous : Option Char) {pos : Nat}
    {u z : List Char} (hz : z <+: σ.rest)
    (hpos : pos + byteLength (u ++ σ.stop :: σ.lead) = σ.place) :
    occurrencesFrom pattern previous pos 0
        (u ++ σ.stop :: (σ.lead ++ (σ.inserted ++ (σ.gap ++ σ.edge :: z)))) =
      (occurrencesFrom pattern previous pos 0
        (u ++ σ.stop :: (σ.lead ++ (σ.gap ++ σ.edge :: z)))).map σ.moveOccurrence := by
  rw [occurrencesFrom_before h, occurrencesFrom_after h _ _ _ hz, List.map_append, hpos]
  congr 1
  · rw [List.map_congr_left (g := id), List.map_id]
    intro o ho
    have hb := h.bounds ho
    refine if_pos ?_
    simp only [byteLength_append, byteLength_cons, byteLength_nil] at hb hpos
    omega
  · refine List.map_congr_left fun o ho => ?_
    have hb := h.bounds ho
    rw [moveOccurrence, if_neg (by omega)]

theorem occurrences_after (h : IsHeader pattern) :
    occurrences pattern σ.after = (occurrences pattern σ.before).map σ.moveOccurrence := by
  have := σ.occurrencesFrom_insert h none (u := σ.front) (z := σ.rest) List.prefix_rfl
    (Nat.zero_add _)
  simpa only [occurrences, after, before, left, right, List.append_assoc,
    List.cons_append] using this

theorem occurrencesFrom_cases (h : IsHeader pattern) {previous : Option Char} {pos : Nat}
    {u z : List Char} (hpos : pos + byteLength (u ++ σ.stop :: σ.lead) = σ.place) {o : Occurrence}
    (ho : o ∈ occurrencesFrom pattern previous pos 0
      (u ++ σ.stop :: (σ.lead ++ (σ.gap ++ σ.edge :: z)))) :
    o.stop ≤ σ.place ∨ σ.place ≤ o.start := by
  rw [occurrencesFrom_before h, hpos] at ho
  rcases List.mem_append.mp ho with ho | ho
  · have hb := h.bounds ho
    simp only [byteLength_append, byteLength_cons, byteLength_nil] at hb hpos
    exact .inl (by omega)
  · exact .inr (h.bounds ho).1

theorem occurrence_cases (h : IsHeader pattern) {o : Occurrence}
    (ho : o ∈ occurrences pattern σ.before) : o.stop ≤ σ.place ∨ σ.place ≤ o.start := by
  simp only [occurrences, before, left, right, List.append_assoc, List.cons_append] at ho
  exact occurrencesFrom_cases h (Nat.zero_add _) ho

end

theorem moveOccurrence_start (o : Occurrence) : (σ.moveOccurrence o).start = σ.move o.start := by
  unfold moveOccurrence
  split
  · next h => rw [move_of_lt h]
  · next h => rw [move_of_le (by omega)]; rfl

theorem moveOccurrence_name (o : Occurrence) : (σ.moveOccurrence o).name = o.name := by
  unfold moveOccurrence
  split <;> rfl

end Seam
end SignatureInference.Source
