import SignatureInference.Text.Lines

/-! # Lines of byte sequences

Bytes fall into lines in one way only: a line ends with a line feed, except that the last one may do
without. The lines without their line feeds are those that `byteLines` finds.
-/
namespace SignatureInference.Text

/-- The lines that bytes are made of, with their line feeds: there is one at the end of each line
and none before, except that the last line may do without. -/
inductive LinesOf : List UInt8 → List (List UInt8) → Prop
  | none : LinesOf [] []
  | unended {line : List UInt8} (hne : line ≠ []) (hline : 10 ∉ line) : LinesOf line [line]
  | ended {line rest : List UInt8} {lines : List (List UInt8)} (hline : 10 ∉ line)
      (hrest : LinesOf rest lines) : LinesOf (line ++ 10 :: rest) ((line ++ [10]) :: lines)

def dropFeed (line : List UInt8) : List UInt8 :=
  if line.getLast? = some 10 then line.dropLast else line

theorem dropFeed_concat (line : List UInt8) : dropFeed (line ++ [10]) = line := by
  simp [dropFeed]

theorem dropFeed_of_not_mem {line : List UInt8} (hline : 10 ∉ line) : dropFeed line = line :=
  if_neg fun hlast => hline (List.mem_of_getLast? hlast)

theorem exists_linesOf (bytes : List UInt8) : ∃ lines, LinesOf bytes lines := by
  induction bytes with
  | nil => exact ⟨[], .none⟩
  | cons b bytes ih =>
    obtain ⟨lines, h⟩ := ih
    by_cases hb : b = 10
    · subst hb
      exact ⟨_, .ended List.not_mem_nil h⟩
    · have hcons : ∀ {line : List UInt8}, 10 ∉ line → 10 ∉ b :: line := fun hline hmem =>
        (List.mem_cons.mp hmem).elim (fun h => hb h.symm) hline
      cases h with
      | none => exact ⟨_, .unended (List.cons_ne_nil b []) (hcons List.not_mem_nil)⟩
      | unended hne hline => exact ⟨_, .unended (List.cons_ne_nil b _) (hcons hline)⟩
      | ended hline hrest => exact ⟨_, .ended (hcons hline) hrest⟩

theorem byteLines_append_lineFeed {line : List UInt8} (hline : 10 ∉ line) (rest : List UInt8) :
    byteLines (line ++ 10 :: rest) = line :: byteLines rest := by
  induction line with
  | nil => rfl
  | cons b line ih =>
    rw [List.mem_cons, not_or] at hline
    rw [List.cons_append, byteLines, if_neg (Ne.symm hline.1), ih hline.2]

theorem byteLines_of_lineFeed_not_mem {line : List UInt8} (hne : line ≠ []) (hline : 10 ∉ line) :
    byteLines line = [line] := by
  induction line with
  | nil => exact absurd rfl hne
  | cons b line ih =>
    rw [List.mem_cons, not_or] at hline
    rw [byteLines, if_neg (Ne.symm hline.1)]
    cases line with
    | nil => rfl
    | cons c line => rw [ih (List.cons_ne_nil c line) hline.2]

theorem byteLines_flatMap_lineFeed {lines : List (List UInt8)} (h : ∀ line ∈ lines, 10 ∉ line) :
    byteLines (lines.flatMap (· ++ [10])) = lines := by
  induction lines with
  | nil => rfl
  | cons line lines ih =>
    rw [List.forall_mem_cons] at h
    rw [List.flatMap_cons, List.append_assoc, List.singleton_append, byteLines_append_lineFeed h.1,
      ih h.2]

namespace LinesOf

variable {bytes : List UInt8} {lines lines' : List (List UInt8)}

theorem byteLines_eq (h : LinesOf bytes lines) : byteLines bytes = lines.map dropFeed := by
  induction h with
  | none => rfl
  | unended hne hline =>
    rw [byteLines_of_lineFeed_not_mem hne hline, List.map_singleton, dropFeed_of_not_mem hline]
  | ended hline hrest ih =>
    rw [byteLines_append_lineFeed hline, List.map_cons, dropFeed_concat, ih]

theorem unique (h : LinesOf bytes lines) (h' : LinesOf bytes lines') : lines = lines' := by
  induction h generalizing lines' with
  | none =>
    generalize hbytes : ([] : List UInt8) = bytes at h'
    cases h' with
    | none => rfl
    | unended hne hline => exact absurd hbytes.symm hne
    | ended hline hrest => simp at hbytes
  | @unended line hne hline =>
    generalize hbytes : line = bytes at h'
    cases h' with
    | none => exact absurd hbytes hne
    | unended hne' hline' => rfl
    | ended hline' hrest => simp [hbytes] at hline
  | @ended line rest lines hline hrest ih =>
    generalize hbytes : line ++ 10 :: rest = bytes at h'
    cases h' with
    | none => simp at hbytes
    | unended hne hline' => simp [← hbytes] at hline'
    | ended hline' hrest' =>
      have hfirst := congrArg byteLines hbytes
      rw [byteLines_append_lineFeed hline, byteLines_append_lineFeed hline'] at hfirst
      obtain rfl := (List.cons.inj hfirst).1
      obtain rfl := (List.cons.inj (List.append_cancel_left hbytes)).2
      rw [ih hrest']

end LinesOf

end SignatureInference.Text
