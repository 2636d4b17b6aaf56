import SignatureInference.Proofs.Source.SeamClasses

/-! # Functions around a seam

The functions that a search between two offsets lists in a source with an insertion are those of the
source without it, moved. The search starts behind a break and ends at a closing brace, so that a
seam inside the range has its stop and its edge inside the range too.
-/
namespace SignatureInference.Source

open Text

namespace Seam

variable {σ : Seam}

def moveFunction (σ : Seam) (f : FunctionSpan) : FunctionSpan :=
  { f with paramsOpen := σ.move f.paramsOpen }

/-! ## The text between two offsets -/

/-- The text between two offsets and the text between the places they go to: the same, unless the
seam lies between them. -/
inductive Between (σ : Seam) (m n : Nat) : List Char → List Char → Prop
  | inFront {w : List Char} (hn : n < σ.place) (hw : m + byteLength w = n) : Between σ m n w w
  | behind {w : List Char} (hm : σ.place ≤ m) (hw : m + byteLength w = n) : Between σ m n w w
  | across {u v : List Char} (l : List Char) (hl : σ.left = l ++ u) (hm : byteLength l = m)
      (hlt : m < σ.place) (hv : v <+: σ.right) (hn : σ.place + byteLength v = n) :
      Between σ m n (u ++ v) (u ++ (σ.inserted ++ v))

theorem between {m n : Nat} (hm : isBoundary σ.before m = true) (hn : isBoundary σ.before n = true)
    (hmn : m ≤ n) (hne : n ≠ σ.place) :
    Between σ m n (takeBytes (n - m) (dropBytes m σ.before))
      (takeBytes (σ.move n - σ.move m) (dropBytes (σ.move m) σ.after)) := by
  obtain ⟨l, r, hl, rfl⟩ := exists_append_of_isBoundary hm
  obtain ⟨l', r', hl', rfl⟩ := exists_append_of_isBoundary hn
  obtain ⟨w, rfl, rfl⟩ := exists_append_of_byteLength_le (hl.symm.trans hl') hmn
  have hw : byteLength l + byteLength w = byteLength (l ++ w) := (byteLength_append l w).symm
  have hwindow : takeBytes (byteLength (l ++ w) - byteLength l)
      (dropBytes (byteLength l) σ.before) = w := by
    rw [hl]
    exact takeBytes_dropBytes rfl hw
  rw [hwindow]
  by_cases hfront : byteLength (l ++ w) < σ.place
  · obtain ⟨x, hx, hr⟩ := exists_append_of_byteLength_le hl'.symm hfront.le
    rw [move_of_lt hfront, move_of_lt (by omega), after, hx, List.append_assoc, List.append_assoc]
    rw [takeBytes_dropBytes rfl hw]
    exact .inFront hfront hw
  · by_cases hbehind : σ.place ≤ byteLength l
    · obtain ⟨x, rfl, hx⟩ := exists_append_of_byteLength_le hl hbehind
      rw [move_of_le (by omega), move_of_le hbehind]
      have hafter : σ.after = (σ.left ++ (σ.inserted ++ x)) ++ (w ++ r') := by
        rw [after, hx]
        simp only [List.append_assoc]
      have hlen : byteLength (σ.left ++ (σ.inserted ++ x)) =
          byteLength (σ.left ++ x) + byteLength σ.inserted := by
        simp only [byteLength_append]
        omega
      rw [hafter, takeBytes_dropBytes hlen (by omega)]
      exact .behind hbehind hw
    · have hlt : byteLength l < σ.place := by omega
      obtain ⟨u, hu, hr⟩ := exists_append_of_byteLength_le hl.symm hlt.le
      have hplace : σ.place = byteLength l + byteLength u := by rw [place, hu, byteLength_append]
      obtain ⟨v, rfl, hv⟩ := exists_append_of_byteLength_le hr.symm (by omega)
      rw [move_of_le (by omega), move_of_lt hlt]
      have hafter : σ.after = l ++ ((u ++ (σ.inserted ++ v)) ++ r') := by
        rw [after, hu, hv]
        simp only [List.append_assoc]
      have hlen : byteLength l + byteLength (u ++ (σ.inserted ++ v)) =
          byteLength (l ++ (u ++ v)) + byteLength σ.inserted := by
        simp only [byteLength_append]
        omega
      rw [hafter, takeBytes_dropBytes rfl hlen]
      refine .across l hu rfl hlt ⟨r', hv.symm⟩ ?_
      simp only [byteLength_append] at hw ⊢
      omega

/-! ## Searches between two offsets -/

section

variable {m n : Nat} {w w' : List Char}

theorem Between.findFrom_eq (h : Between σ m n w w') :
    findFrom endsHead (σ.move m) w' = (findFrom endsHead m w).map fun q => (σ.move q.1, q.2) := by
  cases h with
  | inFront hn hw =>
    rw [move_of_lt (by omega)]
    cases hq : findFrom endsHead m w with
    | none => rfl
    | some q =>
      have hlt := (hasAt_of_findFrom (q := q.1) (c := q.2) hq).1.lt
      have hge := le_findFrom (q := q.1) (c := q.2) hq
      rw [Option.map_some, move_of_lt (by omega)]
  | behind hm hw =>
    rw [move_of_le hm, findFrom_add]
    refine Option.map_congr fun q hq => ?_
    have hge := le_findFrom (q := q.1) (c := q.2) hq
    rw [move_of_le (by omega)]
  | across l hl hlm hlt hv hn =>
    rw [move_of_lt hlt, findFrom_insert σ.inert.endsHead]
    refine Option.map_congr fun q hq => ?_
    rw [move, place, hl, byteLength_append, hlm]

/-- Where the range begins behind a break and ends at a brace, a seam inside it has its stop and its
edge inside it. -/
theorem Between.cases (h : Between σ m n w w') (hm : m < σ.place → m ≤ byteLength σ.front)
    (hn : HasAt σ.before n '\x7d') :
    w' = w ∧ n < σ.place ∧ m + byteLength w = n ∨ w' = w ∧ σ.place ≤ m ∨
      ∃ u z, w = u ++ σ.stop :: (σ.lead ++ (σ.gap ++ σ.edge :: z)) ∧
        w' = u ++ σ.stop :: (σ.lead ++ (σ.inserted ++ (σ.gap ++ σ.edge :: z))) ∧
        m + byteLength (u ++ σ.stop :: σ.lead) = σ.place ∧ z <+: σ.rest := by
  cases h with
  | inFront hlt hw => exact .inl ⟨rfl, hlt, hw⟩
  | behind hle hw => exact .inr (.inl ⟨rfl, hle⟩)
  | @across u v l hl hlm hlt hv hnv =>
    obtain ⟨x, -, rfl⟩ := exists_append_of_byteLength_le hl.symm (hlm.le.trans (hm hlt))
    obtain ⟨z, rfl, hz⟩ := exists_edge_of_hasAt hv hnv hn (by decide) (by decide)
    refine .inr (.inr ⟨x, z, by simp, by simp, ?_, hz⟩)
    rw [place, hl, ← hlm]
    exact (byteLength_append _ _).symm

theorem Between.occurrence_cases (h : Between σ m n w w')
    (hm : m < σ.place → m ≤ byteLength σ.front) (hn : HasAt σ.before n '\x7d') {o : Occurrence}
    (ho : o ∈ occurrencesFrom functionHeader? none m 0 w) :
    o.stop ≤ σ.place ∨ σ.place ≤ o.start := by
  have hb := IsHeader.ofFunction.bounds ho
  obtain ⟨-, hlt, hw⟩ | ⟨-, hle⟩ | ⟨u, z, rfl, -, hpos, -⟩ := h.cases hm hn
  · exact .inl (by omega)
  · exact .inr (by omega)
  · exact occurrencesFrom_cases .ofFunction hpos ho

theorem Between.firstOccurrence?_eq (h : Between σ m n w w')
    (hm : m < σ.place → m ≤ byteLength σ.front) (hn : HasAt σ.before n '\x7d') :
    firstOccurrence? functionHeader? none (σ.move m) w' =
      (firstOccurrence? functionHeader? none m w).map σ.moveOccurrence := by
  rw [firstOccurrence?_eq_head?, firstOccurrence?_eq_head?, ← List.head?_map]
  congr 1
  obtain ⟨rfl, hlt, hw⟩ | ⟨rfl, hle⟩ | ⟨u, z, rfl, rfl, hpos, hz⟩ := h.cases hm hn
  · rw [move_of_lt (by omega), List.map_congr_left (g := id), List.map_id]
    intro o ho
    have hb := IsHeader.ofFunction.bounds ho
    exact if_pos (by omega)
  · rw [move_of_le hle, occurrencesFrom_add]
    refine List.map_congr_left fun o ho => ?_
    have hb := IsHeader.ofFunction.bounds ho
    exact (if_neg (by omega)).symm
  · rw [move_of_lt (by simp at hpos; have := σ.stop.utf8Size_pos; omega)]
    exact σ.occurrencesFrom_insert .ofFunction none hz hpos

end

/-! ## Functions -/

theorem afterFunction_after {stop close : Nat} (hstop : HasAt σ.before stop '\x7d')
    (hclose : isBoundary σ.before close = true) (hle : close ≤ stop) :
    afterFunction σ.after (σ.move stop) (σ.move close) =
      σ.move (afterFunction σ.before stop close) := by
  have hcut := hstop.isBoundary
  have hfind := (between hclose hcut hle (ne_place hstop (by decide) (by decide))).findFrom_eq
  unfold afterFunction
  rw [hfind]
  split
  · next p c hf =>
    obtain ⟨⟨p, c⟩, hq, he⟩ := Option.map_eq_some_iff.mp hf
    cases he
    obtain ⟨hat, hends⟩ := hasAt_of_findFrom hq
    have hp := HasAt.of_range hclose hcut hle hat
    rw [Nat.add_sub_cancel' (le_findFrom hq)] at hp
    have hc : c = '\x7b' ∨ c = ';' := by simpa [endsHead] using hends
    rw [hq]
    rcases hc with rfl | rfl
    · have hmove : findClosing σ.after (σ.move p) = (findClosing σ.before p).map σ.move :=
        findClosing_insert σ.inert hp rfl
      rw [if_neg (show '\x7b' ≠ ';' by decide), hmove]
      cases hfound : findClosing σ.before p with
      | none => simp [hfound]
      | some q =>
        have hbrace := (hasAt_of_findClosing hp rfl hfound).1
        simp [hfound, move_succ_of_isBreak hbrace (by decide)]
    · simp [move_succ_of_isBreak hp (by decide)]
  · next hf =>
    rw [Option.map_eq_none_iff] at hf
    rw [hf]

theorem functionSpansFrom_after {stop : Nat} (hstop : HasAt σ.before stop '\x7d') (steps : Nat)
    {start : Nat} (hstart : IsResume σ.before stop start) :
    functionSpansFrom σ.after (σ.move stop) steps (σ.move start) =
      (functionSpansFrom σ.before stop steps start).map (List.map σ.moveFunction) := by
  induction steps generalizing start with
  | zero => rfl
  | succ steps ih =>
    by_cases hle : stop ≤ start
    · rw [functionSpansFrom_of_le hle, functionSpansFrom_of_le (move_le_move.mpr hle)]
      rfl
    obtain ⟨n, c, rfl, hn, hc⟩ := hstart.resolve_left hle
    have hcut := hn.isBoundary_succ (utf8Size_of_isBreak hc)
    have hend := hstop.isBoundary
    have hfront : n + 1 < σ.place → n + 1 ≤ byteLength σ.front := fun hlt =>
      (hasAt_front_of_isBreak hn (by omega) hc).lt
    have hrange := between hcut hend (by omega) (ne_place hstop (by decide) (by decide))
    have hmove := hrange.firstOccurrence?_eq hfront hstop
    cases ho : firstOccurrence? functionHeader? none (n + 1)
        (takeBytes (stop - (n + 1)) (dropBytes (n + 1) σ.before)) with
    | none =>
      rw [ho] at hmove
      rw [functionSpansFrom_of_none ho, functionSpansFrom_of_none hmove]
      rfl
    | some o =>
      rw [ho] at hmove
      rw [functionSpansFrom_of_some (by omega) ho,
        functionSpansFrom_of_some (move_lt_move.mpr (by omega)) hmove, moveOccurrence_name]
      rw [firstOccurrence?_eq_head?] at ho
      have hmem := List.mem_of_mem_head? ho
      -- the parenthesis that the head of the function ends with
      obtain ⟨k, hk, hparen⟩ := hasAt_of_functionHeader hmem
      have hparen := HasAt.of_range hcut hend (by omega) hparen
      have hopen : (σ.moveOccurrence o).stop - 1 = σ.move (o.stop - 1) := by
        have hb := IsHeader.ofFunction.bounds hmem
        unfold moveOccurrence
        rcases hrange.occurrence_cases hfront hstop hmem with h | h
        · rw [if_pos (by omega), move_of_lt (by omega)]
        · rw [if_neg (by omega), move_of_le (by omega)]
          exact Nat.sub_add_comm (by omega)
      rw [show n + 1 + k = o.stop - 1 by omega] at hparen
      have hmove : findClosing σ.after (σ.move (o.stop - 1)) =
          (findClosing σ.before (o.stop - 1)).map σ.move := findClosing_insert σ.inert hparen rfl
      rw [hopen, hmove]
      cases hclose : findClosing σ.before (o.stop - 1) with
      | none => rfl
      | some close =>
        simp only [Option.map_some, move_lt_move]
        split
        · rfl
        · have hcut := (hasAt_of_findClosing hparen rfl hclose).1.isBoundary
          rw [afterFunction_after hstop hcut (by omega),
            ih (isResume_afterFunction hend hcut (by omega))]
          cases functionSpansFrom σ.before stop steps _ <;> rfl

/-- An insertion moves the functions in the body of a class. -/
theorem methodSpans_after {c : ClassSpan} {n : Nat} {d : Char} (hstart : c.bodyStart = n + 1)
    (hn : HasAt σ.before n d) (hd : isBreak d = true) (hstop : HasAt σ.before c.bodyStop '\x7d') :
    methodSpans σ.after (σ.moveClass c) =
      (methodSpans σ.before c).map (List.map σ.moveFunction) := by
  have hresume : IsResume σ.before c.bodyStop c.bodyStart := .inr ⟨n, d, hstart, hn, hd⟩
  rw [methodSpans, functionSpans, moveClass, functionSpansFrom_after hstop _ hresume,
    functionSpansFrom_eq_functionSpans (sub_le_move_sub_move _ _), methodSpans]

end Seam
end SignatureInference.Source
