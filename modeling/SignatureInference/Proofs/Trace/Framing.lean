import Mathlib.Data.List.Induction
import SignatureInference.Proofs.Text.Bytes
import SignatureInference.Proofs.Text.Lines
import SignatureInference.Proofs.Text.Trimming
import SignatureInference.Trace.Reading

/-! # The frame of a trace

A trace is read while it comes in, so that the lines at its end are known for what they are only
when nothing follows. Two lines are held back at any time. In this way exactly the lines between the
header and the footer are read, each one once and in their order.
-/
namespace SignatureInference.Trace

open Text

/-! ## Lines -/

/-- The text of a line as it stands in a trace, without the line feed and the carriage returns at
its end. -/
def strippedText (line : List UInt8) : List Char :=
  dropEndWhile (fun c => c == '\n' || c == '\r') (decodeLossy line)

theorem strippedText_eq {line : List UInt8} (hline : 10 ∉ line) :
    strippedText line = lineText line ∧ strippedText (line ++ [10]) = lineText line := by
  have hstrip : dropEndWhile (fun c => c == '\n' || c == '\r') (decodeLossy line) =
      lineText line := by
    apply dropEndWhile_congr
    intro c hc
    have hfeed : c ≠ '\n' := fun h => lineFeed_not_mem_decodeLossy hline (h ▸ hc)
    simp [hfeed]
  have hended : decodeLossy (line ++ [10]) = decodeLossy line ++ ['\n'] := by
    rw [decodeLossy, decodePieces_append_lineFeed, List.map_append]
    rfl
  refine ⟨hstrip, ?_⟩
  rw [strippedText, hended, ← hstrip]
  simp [dropEndWhile]

theorem map_lineText {bytes : List UInt8} {lines : List (List UInt8)} (h : LinesOf bytes lines) :
    (byteLines bytes).map lineText = lines.map strippedText := by
  induction h with
  | none => rfl
  | unended hne hline =>
    rw [byteLines_of_lineFeed_not_mem hne hline, List.map_singleton, List.map_singleton,
      (strippedText_eq hline).1]
  | ended hline hrest ih =>
    rw [byteLines_append_lineFeed hline, List.map_cons, List.map_cons, ih,
      (strippedText_eq hline).2]

/-! ## The window -/

def bodyLines (lines : List (List UInt8)) : List (List Char) :=
  ((lines.drop headerLines).take (lines.length - headerLines - footerLines)).map lineText

/-- What a window is after some lines, of which those that came out are `body`: behind the header,
the lines are those that came out and those that are held back, and no more are held back than the
footer has. -/
structure Framed (lines : List (List UInt8)) (w : Window) (body : List (List Char)) : Prop where
  count : w.lines = lines.length
  split : body ++ w.held = (lines.drop headerLines).map lineText
  size : w.held.length = min footerLines (lines.length - headerLines)

theorem framed_nil : Framed [] {} [] := ⟨rfl, rfl, rfl⟩

/-- A line more goes in, and a line comes out unless the window is not full yet. -/
theorem Framed.push {lines : List (List UInt8)} {w : Window} {body : List (List Char)}
    (h : Framed lines w body) (line : List UInt8) :
    Framed (lines ++ [line]) (w.push line).1 (body ++ (w.push line).2.toList) := by
  obtain ⟨hcount, hsplit, hsize⟩ := h
  unfold Window.push
  rw [hcount]
  by_cases hheader : lines.length < headerLines
  · -- nothing stands behind the header yet
    have hnone : (lines ++ [line]).drop headerLines = lines.drop headerLines := by
      rw [List.drop_of_length_le (by simpa using Nat.succ_le_of_lt hheader),
        List.drop_of_length_le (Nat.le_of_lt hheader)]
    rw [if_pos hheader]
    refine ⟨by simp, by simpa [hnone] using hsplit, ?_⟩
    simp only [List.length_append, List.length_singleton]
    omega
  · have hbehind : (lines ++ [line]).drop headerLines = lines.drop headerLines ++ [line] :=
      List.drop_append_of_le_length (by omega)
    rw [if_neg hheader]
    dsimp only
    by_cases hfull : footerLines < (w.held ++ [lineText line]).length
    · rw [if_pos hfull]
      rw [List.length_append, List.length_singleton] at hfull
      cases hheld : w.held with
      | nil => simp [hheld, footerLines] at hfull
      | cons first held =>
        rw [hheld] at hsplit hsize hfull
        refine ⟨by simp, ?_, ?_⟩
        · rw [hbehind, List.map_append, ← hsplit]
          simp
        · simp only [List.cons_append, List.tail_cons, List.length_append, List.length_cons,
            List.length_nil]
            at hfull hsize ⊢
          omega
    · rw [if_neg hfull]
      refine ⟨by simp, ?_, ?_⟩
      · rw [hbehind, List.map_append, ← hsplit]
        simp
      · simp only [List.length_append, List.length_singleton] at hfull ⊢
        omega

theorem Framed.body_eq {lines : List (List UInt8)} {w : Window} {body : List (List Char)}
    (h : Framed lines w body) :
    body = bodyLines lines := by
  have hlength : body.length = lines.length - headerLines - footerLines := by
    have htotal := congrArg List.length h.split
    have hheld := h.size
    simp only [List.length_append, List.length_map, List.length_drop] at htotal
    omega
  rw [bodyLines, List.map_take, ← h.split, ← hlength, List.take_left]

/-! ## Whole traces -/

namespace Reading

variable (index : Index) (filter : PathFilter)

/-- At any time, the lines that came out of the window have been read. -/
theorem framed_foldl (lines : List (List UInt8)) (s : Reading) :
    ∃ w body, lines.foldl (takeLine index filter) ({}, s) =
      (w, body.foldl (readLine index filter) s) ∧
      Framed lines w body := by
  induction lines using List.reverseRecOn with
  | nil => exact ⟨{}, [], rfl, framed_nil⟩
  | append_singleton lines line ih =>
    obtain ⟨w, body, hrun, hframed⟩ := ih
    refine ⟨(w.push line).1, body ++ (w.push line).2.toList, ?_, hframed.push line⟩
    rw [List.foldl_append, hrun, List.foldl_cons, List.foldl_nil, takeLine, List.foldl_append]
    generalize w.push line = p
    obtain ⟨w', out⟩ := p
    cases out with
    | none => rfl
    | some first => rfl

theorem ofBytes_eq (doubles : Doubles) (bytes : List UInt8) :
    ofBytes index filter doubles bytes =
      let s := (bodyLines (byteLines bytes)).foldl (readLine index filter) { doubles }
      { s with stats := { s.stats with lines := (byteLines bytes).length } } := by
  obtain ⟨w, body, hrun, hframed⟩ := framed_foldl index filter (byteLines bytes) { doubles }
  rw [ofBytes, hrun, ← hframed.body_eq, ← hframed.count]

end Reading

end SignatureInference.Trace
