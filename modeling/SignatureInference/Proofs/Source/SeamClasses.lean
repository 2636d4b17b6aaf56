import SignatureInference.Proofs.Source.Seam

/-! # Classes around a seam

The class-like declarations of a source with an insertion are those of the source without it, with
their bodies moved.
-/
namespace SignatureInference.Source

open Text

/-! ## What spans are made of -/

theorem inExpression_edge {d : Char} (hd : isEdge d = true) (u v z : List Char) :
    inExpression (u ++ d :: z) = inExpression (v ++ d :: z) := by
  have hblank : isBlank d = false := by
    rcases isEdge_cases hd with rfl | rfl | rfl | rfl | rfl <;> decide
  have hcolon : d ∉ "::".toList := by
    rcases isEdge_cases hd with rfl | rfl | rfl | rfl | rfl <;> decide
  have harrow : d ∉ "->".toList := by
    rcases isEdge_cases hd with rfl | rfl | rfl | rfl | rfl <;> decide
  have hnew : isAscii d = true ∧ d.toLower ∉ "new".toList := by
    rcases isEdge_cases hd with rfl | rfl | rfl | rfl | rfl <;> decide
  have lowered : ∀ w : List Char, endsWith "new".toList (lower (w ++ d :: trimEnd z)) =
      endsWith "new".toList (lower (trimEnd z)) :=
    fun w => endsWith_lower_stop (by decide) hnew.1 hnew.2 w _
  simp only [inExpression, trimEnd_stop hblank, endsWith_stop hcolon, endsWith_stop harrow, lowered]

theorem namespaceAt_map {f : Occurrence → Occurrence} {g : Nat → Nat}
    (hname : ∀ o, (f o).name = o.name) (hstart : ∀ o, (f o).start = g o.start)
    (hg : ∀ m n, g m < g n ↔ m < n) (namespaces : List Occurrence) (offset : Nat) :
    namespaceAt (namespaces.map f) (g offset) = namespaceAt namespaces offset := by
  unfold namespaceAt
  rw [List.takeWhile_map]
  have hp : ((fun o : Occurrence => decide (o.start < g offset)) ∘ f) =
      fun o => decide (o.start < offset) := by
    funext o
    simp [hstart, hg]
  rw [hp, List.getLast?_map]
  cases (namespaces.takeWhile fun o => decide (o.start < offset)).getLast? with
  | none => rfl
  | some o => simp [hname]

namespace Seam

variable {σ : Seam}

def moveClass (σ : Seam) (c : ClassSpan) : ClassSpan :=
  { c with bodyStart := σ.move c.bodyStart, bodyStop := σ.move c.bodyStop }

/-! ## Classes -/

theorem classBody?_of_found {n m : Nat} {r r' : List Char} (hr : dropBytes n σ.before = r)
    (hr' : dropBytes m σ.after = r')
    (hfind : findFrom endsHead m r' = (findFrom endsHead n r).map fun q => (σ.move q.1, q.2))
    (hat : ∀ q c, findFrom endsHead n r = some (q, c) → HasAt σ.before q c) :
    classBody? σ.after m = (classBody? σ.before n).map fun b => (σ.move b.1, σ.move b.2) := by
  unfold classBody?
  rw [hr, hr', hfind]
  cases hf : findFrom endsHead n r with
  | none => rfl
  | some q =>
    obtain ⟨q, c⟩ := q
    have hq := hat q c hf
    have hends := (hasAt_of_findFrom hf).2
    simp only [Option.map_some, Option.bind_some]
    split
    · rfl
    · next hne =>
      have hc : c = '\x7b' := by
        have : c = '\x7b' ∨ c = ';' := by simpa [endsHead] using hends
        exact this.resolve_right hne
      subst hc
      have hclose : findClosing σ.after (σ.move q) = (findClosing σ.before q).map σ.move :=
        findClosing_insert σ.inert hq rfl
      rw [hclose, Option.map_map, Option.map_map]
      refine Option.map_congr fun stop _ => ?_
      simp only [Function.comp, move_succ_of_isBreak hq (by decide)]

theorem exists_edge_of_header {pattern : Option Char → List Char → Option Found}
    (h : IsHeader pattern) {previous : Option Char} {x v : List Char} {f : Found}
    (hx : σ.right = x ++ v) (hf : pattern previous v = some f) :
    ∃ y, x = σ.gap ++ σ.edge :: y := by
  cases v with
  | nil =>
    have := (h.suffix hf).2
    simp at this
  | cons c cs =>
    have hc := (h.begins hf).2
    obtain ⟨y, hy, -⟩ := exists_edge hx
      (by by_contra hb; rw [beginsKeyword_of_isBlank (by simpa using hb)] at hc; cases hc)
      (by rintro rfl; rw [beginsKeyword_edge] at hc; cases hc)
    exact ⟨y, hy⟩

theorem classSpan?_after {o : Occurrence} (ho : o ∈ occurrences classHeader? σ.before)
    (namespaces : List Occurrence) :
    classSpan? σ.after (namespaces.map σ.moveOccurrence) (σ.moveOccurrence o) =
      (classSpan? σ.before namespaces o).map σ.moveClass := by
  have hspace : namespaceAt (namespaces.map σ.moveOccurrence) (σ.moveOccurrence o).start =
      namespaceAt namespaces o.start := by
    rw [moveOccurrence_start]
    exact namespaceAt_map moveOccurrence_name moveOccurrence_start (fun _ _ => shift_lt_shift) _ _
  have hname := σ.moveOccurrence_name o
  obtain ⟨u, v, f, huv, hstart, hf, hstop, -⟩ := IsHeader.ofClass.start_mem ho
  obtain ⟨⟨w, rfl⟩, -⟩ := IsHeader.ofClass.suffix hf
  rw [Nat.zero_add] at hstart hstop
  have hcut : σ.before = (u ++ w) ++ f.rest := by rw [huv, List.append_assoc]
  have hstop : o.stop = byteLength (u ++ w) := by
    rw [hcut, byteLength_append] at hstop
    omega
  -- what is read in front of the keyword, and the body behind the name
  suffices hparts : inExpression (takeBytes (σ.moveOccurrence o).start σ.after) =
      inExpression (takeBytes o.start σ.before) ∧
      classBody? σ.after (σ.moveOccurrence o).stop =
        (classBody? σ.before o.stop).map fun b => (σ.move b.1, σ.move b.2) by
    rw [classSpan?_eq, classSpan?_eq, hparts.1, hparts.2, hname, hspace]
    split
    · rfl
    · rw [Option.map_map, Option.map_map]
      rfl
  have htake : takeBytes o.start σ.before = u := by rw [huv, hstart, takeBytes_byteLength]
  have hdrop : dropBytes o.stop σ.before = f.rest := by rw [hcut, hstop, dropBytes_byteLength]
  have hat : ∀ q c, findFrom endsHead o.stop f.rest = some (q, c) → HasAt σ.before q c := by
    intro q c hq
    have := (hasAt_of_findFrom hq).1.append_left (u ++ w)
    rwa [← hstop, Nat.add_sub_cancel' (le_findFrom hq), ← hcut] at this
  rcases occurrence_cases .ofClass ho with hle | hle
  · have hlt : o.start < σ.place := lt_of_lt_of_le (IsHeader.ofClass.bounds ho).2.1 hle
    have hmove : σ.moveOccurrence o = o := if_pos hlt
    obtain ⟨x, hx, hrest⟩ := exists_append_of_byteLength_le hcut.symm (hstop ▸ hle)
    have hafter : σ.after = (u ++ w) ++ (x ++ (σ.inserted ++ σ.right)) := by
      rw [after, hx, List.append_assoc]
    have hplace : σ.place = o.stop + byteLength x := by rw [place, hx, byteLength_append, hstop]
    rw [hmove]
    constructor
    · rw [htake, hafter, hstart, List.append_assoc, takeBytes_byteLength]
    · refine classBody?_of_found hdrop (by rw [hafter, hstop, dropBytes_byteLength]) ?_ hat
      rw [findFrom_insert σ.inert.endsHead, hrest, ← hplace]
      rfl
  · have hmove : σ.moveOccurrence o = o.move (byteLength σ.inserted) := if_neg (by omega)
    obtain ⟨x, rfl, hx⟩ := exists_append_of_byteLength_le huv (hstart ▸ hle)
    obtain ⟨y, rfl⟩ := exists_edge_of_header .ofClass hx hf
    have hafter : σ.after = (σ.left ++ (σ.inserted ++ (σ.gap ++ σ.edge :: y))) ++
        (w ++ f.rest) := by
      rw [after, hx]
      simp only [List.append_assoc]
    have hlen : (o.move (byteLength σ.inserted)).start =
        byteLength (σ.left ++ (σ.inserted ++ (σ.gap ++ σ.edge :: y))) := by
      simp only [Occurrence.move, hstart, byteLength_append]
      omega
    have hend : (o.move (byteLength σ.inserted)).stop =
        byteLength (σ.left ++ (σ.inserted ++ (σ.gap ++ σ.edge :: y)) ++ w) := by
      simp only [Occurrence.move, hstop, byteLength_append]
      omega
    rw [hmove]
    constructor
    · rw [htake, hlen, hafter, takeBytes_byteLength]
      simpa only [List.append_assoc] using
        inExpression_edge σ.isEdge_edge (σ.left ++ (σ.inserted ++ σ.gap)) (σ.left ++ σ.gap) y
    · have hdrop' : dropBytes (o.move (byteLength σ.inserted)).stop σ.after = f.rest := by
        rw [hend, hafter, ← List.append_assoc _ w, dropBytes_byteLength]
      refine classBody?_of_found hdrop hdrop' ?_ hat
      rw [Occurrence.move, findFrom_add]
      refine Option.map_congr fun q hq => ?_
      have hge := le_findFrom (q := q.1) (c := q.2) hq
      have hlt := (IsHeader.ofClass.bounds ho).2.1
      rw [move_of_le (by omega)]

theorem classSpans_after : classSpans σ.after = (classSpans σ.before).map σ.moveClass := by
  simp only [classSpans, occurrences_after .ofNamespace, occurrences_after .ofClass]
  rw [List.filterMap_map, List.map_filterMap]
  exact List.filterMap_congr fun o ho => classSpan?_after ho _

end Seam
end SignatureInference.Source
