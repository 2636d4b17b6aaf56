import SignatureInference.Proofs.Source.BufferTokens
import SignatureInference.Proofs.Text.Reading
import SignatureInference.Proofs.Text.Search

/-! # Heredocs in the buffer

A heredoc is read line by line. Its label is ASCII, so a line closes it among the bytes where it
closes it in the text.
-/
namespace SignatureInference.Source.Buffer

open Text

theorem utf8Size_of_isIndent {c : Char} (h : isIndent c = true) : c.utf8Size = 1 := by
  have hcases : c = ' ' ∨ c = '\t' := by simpa [isIndent] using h
  rcases hcases with rfl | rfl <;> decide

theorem utf8Size_of_isIdentPart {c : Char} (h : isIdentPart c = true) : c.utf8Size = 1 := by
  rw [Char.utf8Size_eq_one_iff, UInt32.le_iff_toNat_le]
  change c.toNat ≤ 127
  simp only [isIdentPart, Char.isAlphanum, Bool.or_eq_true, isAlpha_iff, isUpper_iff,
    isLower_iff] at h
  rcases h with ((h | h) | h) | h
  · omega
  · omega
  · have hdigit : 48 ≤ c.toNat ∧ c.toNat ≤ 57 := by
      simpa [Char.isDigit, UInt32.le_iff_toNat_le] using h
    omega
  · rw [beq_iff_eq.mp h]
    decide

theorem newline_not_mem {cs : List Char} (h : ∀ c ∈ cs, isIdentPart c = true) : '\n' ∉ cs :=
  fun hmem => absurd (h '\n' hmem) (by decide)

theorem slice?_middle (front middle rest : List UInt8) :
    slice? (front ++ (middle ++ rest)) front.length (front.length + middle.length) =
      some middle := by
  rw [slice?, if_pos ⟨Nat.le_add_right .., by simp⟩, ← List.append_assoc, List.take_left' (by simp),
    List.drop_left]

theorem slice?_text (front : List UInt8) (lead t rest : List Char) :
    slice? (front ++ bytes (lead ++ (t ++ rest))) (front.length + byteLength lead)
      (front.length + byteLength lead + byteLength t) = some (bytes t) := by
  have h := slice?_middle (front ++ bytes lead) (bytes t) (bytes rest)
  rwa [List.append_assoc, ← bytes_append, ← bytes_append, List.length_append, length_bytes,
    length_bytes] at h

theorem position?_line_cons {c : Char} (hc : c ≠ '\n') (cs : List Char) :
    position? ['\n'.toUInt8] (bytes (c :: cs)) =
      (position? ['\n'.toUInt8] (bytes cs)).map (c.utf8Size + ·) := by
  have hnot : ['\n'].isPrefixOf (c :: cs) = false := by
    simp only [List.isPrefixOf_cons_cons, List.isPrefixOf_nil_left, Bool.and_true,
      beq_eq_false_iff_ne]
    exact hc.symm
  have hstep := position?_bytes_cons (d := '\n') [] (by decide) c cs
  rwa [hnot] at hstep

theorem find?_line {line : List Char} (h : '\n' ∉ line) (front : List UInt8) (cs : List Char) :
    find? ['\n'.toUInt8] (front ++ bytes (line ++ '\n' :: cs)) front.length =
      some (front.length + byteLength line) := by
  rw [find?, List.drop_left, Option.map_eq_some_iff]
  refine ⟨byteLength line, ?_, rfl⟩
  induction line with
  | nil => rfl
  | cons c line ih =>
    rw [List.mem_cons, not_or] at h
    rw [List.cons_append, position?_line_cons (Ne.symm h.1), ih h.2]
    rfl

theorem find?_line_none {cs : List Char} (h : '\n' ∉ cs) (front : List UInt8) :
    find? ['\n'.toUInt8] (front ++ bytes cs) front.length = none := by
  rw [find?, List.drop_left, Option.map_eq_none_iff]
  induction cs with
  | nil => rfl
  | cons c cs ih =>
    rw [List.mem_cons, not_or] at h
    rw [position?_line_cons (Ne.symm h.1), ih h.2]
    rfl

section

variable {label : List Char} (hlabel : ∀ d ∈ label, isIdentPart d = true)

theorem closesHeredoc_label (label z : List Char) :
    closesHeredoc label (label ++ z) = !z.head?.any isIdentPart := by
  rw [closesHeredoc, dropHead?_append]
  cases z <;> rfl

theorem closesHeredoc_eq_false {u : List Char} (h : ¬label <+: u) :
    closesHeredoc label u = false := by
  rw [closesHeredoc, dropHead?_eq_none_iff.mpr h]

/-- A text that ends, or ends its line. -/
def EndsLine (rest : List Char) : Prop := ∀ c ∈ rest.head?, c = '\n'

theorem begins_of_begins_append {word tail rest : List Char} (hrest : ∀ c ∈ rest.head?, c ∉ word)
    (h : word <+: tail ++ rest) : word <+: tail := by
  obtain ⟨z, hz⟩ := h
  rcases List.append_eq_append_iff.mp hz with ⟨w, htail, -⟩ | ⟨w, hw, hrest'⟩
  · exact ⟨w, htail.symm⟩
  · cases w with
    | nil => exact ⟨[], by simpa using hw⟩
    | cons c w => exact absurd (by rw [hw]; simp) (hrest c (by rw [hrest']; rfl))

include hlabel in
theorem closing_bytes (front : List UInt8) (indent tail : List Char) {rest : List Char}
    (hrest : EndsLine rest) :
    ((bytes label).isPrefixOf (bytes tail) &&
        !(front ++ bytes (indent ++ (tail ++ rest)))[front.length + byteLength indent +
          byteLength label]?.any
          (onByte isIdentPart)) =
      closesHeredoc label (tail ++ rest) := by
  have hascii : ∀ d ∈ label, d.utf8Size = 1 := fun d hd => utf8Size_of_isIdentPart (hlabel d hd)
  have hbegins : (bytes label).isPrefixOf (bytes tail) = label.isPrefixOf tail := by
    rw [bytes_ascii hascii]
    exact isPrefixOf_bytes label hascii tail
  by_cases h : label <+: tail
  · obtain ⟨z, rfl⟩ := h
    have hbyte :
        (front ++ bytes (indent ++ (label ++ z ++ rest)))[front.length + byteLength indent +
          byteLength label]? =
          (bytes (z ++ rest)).head? := by
      rw [← getElem?_here (front ++ bytes (indent ++ label))]
      simp [Nat.add_assoc]
    rw [hbegins, List.isPrefixOf_iff_prefix.mpr (List.prefix_append ..), hbyte,
      any_head?_bytes fun c => utf8Size_of_isIdentPart, Bool.true_and, List.append_assoc,
      closesHeredoc_label]
  · have hline : ∀ c ∈ rest.head?, c ∉ label := by
      intro c hc hmem
      obtain rfl := hrest c hc
      exact newline_not_mem hlabel hmem
    rw [hbegins, closesHeredoc_eq_false fun hp => h (begins_of_begins_append hline hp)]
    rw [Bool.and_eq_false_iff]
    left
    rw [Bool.eq_false_iff]
    exact fun hp => h (List.isPrefixOf_iff_prefix.mp hp)

theorem lineStop_bytes {line rest : List Char} (hline : '\n' ∉ line) (hrest : EndsLine rest)
    (front : List UInt8) :
    (find? ['\n'.toUInt8] (front ++ bytes (line ++ rest)) front.length).getD
        (front ++ bytes (line ++ rest)).length = front.length + byteLength line := by
  cases rest with
  | nil => simp [find?_line_none hline]
  | cons c rest =>
    obtain rfl := hrest c rfl
    rw [find?_line hline]
    rfl

include hlabel in
/-- One line of a heredoc: its label closes the heredoc there, or the next line is looked at. -/
theorem heredocBody?_line {line rest : List Char} (hne : line ++ rest ≠ []) (hline : '\n' ∉ line)
    (hrest : EndsLine rest) (front : List UInt8) (bodyStart : Nat) :
    heredocBody? (front ++ bytes (line ++ rest)) (bytes label) bodyStart front.length =
      if closesHeredoc label (line.dropWhile isIndent ++ rest) then
        some ⟨some (bodyStart, front.length + byteLength (line.takeWhile isIndent)),
          front.length + byteLength (line.takeWhile isIndent) + byteLength label⟩
      else heredocBody? (front ++ bytes (line ++ rest))
        (bytes label) bodyStart (front.length + byteLength line + 1) := by
  have hin : front.length < (front ++ bytes (line ++ rest)).length := by
    have := byteLength_pos hne
    simp only [List.length_append, length_bytes]
    omega
  have hstop := lineStop_bytes hline hrest front
  have hslice : slice? (front ++ bytes (line ++ rest)) front.length
    (front.length + byteLength line) =
      some (bytes line) := by
    simpa using slice?_text front [] line rest
  have hindent : ((bytes line).takeWhile (onByte isIndent)).length =
      byteLength (line.takeWhile isIndent) := by
    rw [takeWhile_bytes fun c => utf8Size_of_isIndent, length_bytes]
  have htail : slice? (front ++ bytes (line ++ rest))
    (front.length + byteLength (line.takeWhile isIndent))
      (front.length + byteLength line) = some (bytes (line.dropWhile isIndent)) := by
    have hparts := slice?_text front (line.takeWhile isIndent) (line.dropWhile isIndent) rest
    rw [← List.append_assoc, List.takeWhile_append_dropWhile, Nat.add_assoc, ← byteLength_append,
      List.takeWhile_append_dropWhile] at hparts
    exact hparts
  have hclosing := closing_bytes hlabel front (line.takeWhile isIndent)
    (line.dropWhile isIndent) hrest
  rw [← List.append_assoc, List.takeWhile_append_dropWhile] at hclosing
  rw [heredocBody?, dif_pos hin]
  simp only [hstop]
  split
  · next h =>
    rw [hstop, hslice] at h
    cases h
  · next part h =>
    rw [hstop, hslice] at h
    obtain rfl := Option.some.inj h
    simp only [hindent, htail, length_bytes, hclosing]

theorem heredocBodyPlan_unclosed {line rest : List Char} (hline : '\n' ∉ line)
    (hopen : closesHeredoc label ((line ++ rest).dropWhile isIndent) = false) :
    heredocBodyPlan label true (line ++ rest) =
      List.replicate line.length .blank ++ heredocBodyPlan label false rest := by
  cases line with
  | cons e line =>
    rw [List.mem_cons, not_or] at hline
    rw [List.cons_append, heredocBodyPlan_next (by simpa using hopen),
      beq_false_of_ne (Ne.symm hline.1), heredocBodyPlan_line hline.2]
    rfl
  | nil =>
    cases rest with
    | nil => rfl
    | cons c rest =>
      rw [List.nil_append, heredocBodyPlan_next (by simpa using hopen), heredocBodyPlan_next rfl]
      rfl

theorem exists_line (cs : List Char) :
    ∃ line rest, cs = line ++ rest ∧ '\n' ∉ line ∧ EndsLine rest := by
  refine ⟨cs.takeWhile (· != '\n'), cs.dropWhile (· != '\n'),
    List.takeWhile_append_dropWhile.symm, ?_, ?_⟩
  · intro h
    have := List.mem_takeWhile_imp h
    simp at this
  · intro c hc
    have := List.head?_dropWhile_not (· != '\n') cs
    rw [hc] at this
    simpa using this

theorem EndsLine.dropWhile_append {rest : List Char} (h : EndsLine rest) (line : List Char) :
    (line ++ rest).takeWhile isIndent = line.takeWhile isIndent ∧
      (line ++ rest).dropWhile isIndent = line.dropWhile isIndent ++ rest := by
  cases rest with
  | nil => simp
  | cons c rest =>
    obtain rfl := h c rfl
    exact ⟨takeWhile_stop (by decide) line rest, dropWhile_stop (by decide) line rest⟩

theorem heredocBody?_none {bytes label : List UInt8} {bodyStart lineStart : Nat}
    (h : bytes.length ≤ lineStart) :
    heredocBody? bytes label bodyStart lineStart =
      some ⟨some (bodyStart, bytes.length), bytes.length⟩ := by
  rw [heredocBody?, dif_neg (Nat.not_lt.mpr h)]

include hlabel in
/-- The body of a heredoc is blanked up to its closing label, if it has one, and the label is
kept. -/
theorem heredocBody?_bytes (front : List UInt8) (bodyStart : Nat) (cs : List Char) :
    ∃ n k, heredocBodyPlan label true cs = List.replicate n .blank ++ List.replicate k .keep ∧
      n + k ≤ cs.length ∧
      heredocBody? (front ++ bytes cs) (bytes label) bodyStart front.length =
        some ⟨some (bodyStart, front.length + byteLength (cs.take n)),
          front.length + byteLength (cs.take (n + k))⟩ := by
  induction hn : cs.length using Nat.strong_induction_on generalizing front cs with
  | h n ih =>
    subst hn
    by_cases hne : cs = []
    · subst hne
      refine ⟨0, 0, rfl, le_rfl, ?_⟩
      rw [heredocBody?_none (by simp)]
      simp
    obtain ⟨line, rest, rfl, hline, hrest⟩ := exists_line cs
    obtain ⟨htake, hdrop⟩ := hrest.dropWhile_append line
    rw [heredocBody?_line hlabel hne hline hrest]
    by_cases hclose : closesHeredoc label (line.dropWhile isIndent ++ rest) = true
    · rw [if_pos hclose]
      have hbegins : label <+: line.dropWhile isIndent ++ rest := by
        by_contra h
        rw [closesHeredoc_eq_false h] at hclose
        cases hclose
      obtain ⟨z, hz⟩ := hbegins
      have hparts : line ++ rest = line.takeWhile isIndent ++ (label ++ z) := by
        rw [hz, ← List.append_assoc, List.takeWhile_append_dropWhile]
      refine ⟨(line.takeWhile isIndent).length, label.length, ?_, ?_, ?_⟩
      · rw [heredocBodyPlan_close hne (by rwa [hdrop]), htake]
      · rw [hparts, List.length_append, List.length_append]
        omega
      · rw [hparts, List.take_left, List.take_add, List.take_left, List.drop_left,
          List.take_left, byteLength_append, Nat.add_assoc]
    · rw [if_neg hclose]
      rw [Bool.not_eq_true, ← hdrop] at hclose
      have hplan := heredocBodyPlan_unclosed hline hclose
      cases rest with
      | nil =>
        refine ⟨line.length, 0, by simpa [heredocBodyPlan] using hplan, by simp, ?_⟩
        rw [heredocBody?_none (by simp)]
        simp
      | cons c rest =>
        obtain rfl := hrest c rfl
        obtain ⟨n, k, hrestPlan, hle, hbody⟩ :=
          ih _ (by rw [List.length_append, List.length_cons]; omega)
          (front ++ bytes (line ++ ['\n'])) rest rfl
        have hsize : '\n'.utf8Size = 1 := by decide
        have htext : line ++ '\n' :: rest = (line ++ ['\n']) ++ rest := by simp
        have hlen : (line ++ ['\n']).length = line.length + 1 := by simp
        refine ⟨line.length + 1 + n, k, ?_, ?_, ?_⟩
        · rw [hplan, heredocBodyPlan_next rfl, beq_self_eq_true, hrestPlan, Nat.add_assoc,
            ← List.replicate_append_replicate, Nat.add_comm 1 n, List.replicate_succ]
          simp
        · simp only [List.length_append, List.length_cons]
          omega
        · rw [← grow_front_text (heredocBody? · (bytes label) bodyStart), ← htext] at hbody
          rw [byteLength_append, byteLength_cons, hsize, byteLength_nil, ← Nat.add_assoc] at hbody
          rw [hbody, htext, Nat.add_assoc (line.length + 1), ← hlen, List.take_length_add_append,
            List.take_length_add_append]
          simp [hsize, Nat.add_assoc]

end

theorem skip_bytes {p : Char → Bool} (hp : ∀ c, p c = true → c.utf8Size = 1) (front : List UInt8)
    (cs : List Char) :
    skip (onByte p) (front ++ bytes cs) front.length =
      front.length + byteLength (cs.takeWhile p) := by
  rw [skip, List.drop_left, takeWhile_bytes hp, length_bytes]

theorem labelStart_bytes (front : List UInt8) (cs : List Char) :
    ∃ lead, cs = lead ++ afterQuote cs ∧
      (if (front ++ bytes cs)[skip (onByte isIndent) (front ++ bytes cs) front.length]?.any
          (onByte fun c => c = '\'' || c = '"') then skip (onByte isIndent)
            (front ++ bytes cs) front.length + 1
        else skip (onByte isIndent) (front ++ bytes cs) front.length) =
          front.length + byteLength lead := by
  have hquote : ∀ c : Char, (c = '\'' || c = '"') = true → c.utf8Size = 1 := by
    intro c hc
    have hcases : c = '\'' ∨ c = '"' := by simpa using hc
    rcases hcases with rfl | rfl <;> decide
  have hparts := List.takeWhile_append_dropWhile (p := isIndent) (l := cs)
  have hnext : (front ++ bytes cs)[front.length + byteLength (cs.takeWhile isIndent)]?.any
      (onByte fun c => c = '\'' || c = '"') =
        (cs.dropWhile isIndent).head?.any fun c => c = '\'' || c = '"' := by
    rw [← any_head?_bytes hquote, ← getElem?_here (front ++ bytes (cs.takeWhile isIndent)),
      List.append_assoc, ← bytes_append, hparts, List.length_append, length_bytes]
  rw [skip_bytes fun c => utf8Size_of_isIndent, hnext]
  unfold afterQuote
  cases hrest : cs.dropWhile isIndent with
  | nil =>
    rw [hrest, List.append_nil] at hparts
    exact ⟨cs.takeWhile isIndent, by simpa using hparts.symm, rfl⟩
  | cons c ds =>
    rw [hrest] at hparts
    by_cases hc : (c = '\'' || c = '"') = true
    · refine ⟨cs.takeWhile isIndent ++ [c], ?_, ?_⟩
      · simp only [if_pos hc]
        rw [List.append_assoc]
        exact hparts.symm
      · rw [List.head?_cons, Option.any_some, if_pos hc, byteLength_append, byteLength_cons,
          hquote c hc]
        rfl
    · refine ⟨cs.takeWhile isIndent, ?_, ?_⟩
      · simp only [if_neg hc]
        exact hparts.symm
      · rw [List.head?_cons, Option.any_some, if_neg hc]

theorem heredocPlan_of_line {cs lead label v rest : List Char} (hcs : cs = lead ++ afterQuote cs)
    (hlabel : afterQuote cs = label ++ (v ++ rest))
    (hident : (afterQuote cs).takeWhile isIdentPart = label) (hne : label ≠ [])
    (hline : '\n' ∉ label ++ v) :
    heredocPlan cs =
      List.replicate (lead.length + ((label ++ v).length + (headerRest label rest).1)) .keep ++
        (headerRest label rest).2 := by
  have hlen : cs.length - (afterQuote cs).length = lead.length := by
    have := congrArg List.length hcs
    rw [List.length_append] at this
    omega
  rw [heredocPlan_eq, hident, if_neg hne, hlen, hlabel, ← List.append_assoc,
    headerRest_append label hline]

theorem heredoc?_bytes (front : List UInt8) {start : Nat} (hstart : start + 3 = front.length)
    (cs : List Char) :
    ∃ m n k blanks,
      heredocPlan cs = List.replicate m .keep ++
        (List.replicate n .blank ++ List.replicate k .keep) ∧
      m + n + k ≤ cs.length ∧
      heredoc? (front ++ bytes cs) start =
        some ⟨blanks, front.length + byteLength (cs.take (m + n + k))⟩ ∧
      (blanks = none ∧ n = 0 ∨
        blanks = some (front.length + byteLength (cs.take m),
          front.length + byteLength (cs.take (m + n)))) := by
  obtain ⟨lead, hcs, hlead⟩ := labelStart_bytes front cs
  have hident : ∀ d ∈ (afterQuote cs).takeWhile isIdentPart, isIdentPart d = true :=
    fun d => List.mem_takeWhile_imp
  have hstop : skip (onByte isIdentPart) (front ++ bytes cs) (front.length + byteLength lead) =
      front.length + byteLength lead + byteLength ((afterQuote cs).takeWhile isIdentPart) := by
    have h := skip_bytes (fun c => utf8Size_of_isIdentPart) (front ++ bytes lead) (afterQuote cs)
    rwa [← grow_front_text (skip (onByte isIdentPart)), ← hcs, List.length_append,
      length_bytes] at h
  unfold heredoc?
  simp only [hstart, hlead, hstop]
  by_cases hempty : (afterQuote cs).takeWhile isIdentPart = []
  · refine ⟨0, 0, 0, none, ?_, Nat.zero_le _, ?_, .inl ⟨rfl, rfl⟩⟩
    · rw [heredocPlan_eq, if_pos hempty]
      rfl
    · rw [hempty, byteLength_nil, if_pos (Nat.add_zero _)]
      rfl
  · have hpos := byteLength_pos hempty
    obtain ⟨v, rest, hz, hv, hrest⟩ := exists_line ((afterQuote cs).dropWhile isIdentPart)
    have hlabel : afterQuote cs = (afterQuote cs).takeWhile isIdentPart ++ (v ++ rest) := by
      rw [← hz, List.takeWhile_append_dropWhile]
    have hplan := heredocPlan_of_line hcs hlabel rfl hempty
      (List.not_mem_append (newline_not_mem hident) hv)
    have htext := hcs.trans (congrArg (lead ++ ·) hlabel)
    generalize (afterQuote cs).takeWhile isIdentPart = label at *
    clear hcs hlabel hz hlead hstop
    have hgrow := grow_front_text (find? ['\n'.toUInt8]) front (lead ++ label) (v ++ rest)
    rw [List.append_assoc, ← htext, byteLength_append, ← Nat.add_assoc] at hgrow
    rw [if_neg (by omega), htext, slice?_text, ← htext]
    simp only [hgrow]
    cases rest with
    | nil =>
      refine ⟨cs.length, 0, 0, none, ?_, le_rfl, ?_, .inl ⟨rfl, rfl⟩⟩
      · rw [hplan, htext]
        simp [headerRest]
      · rw [List.append_nil, find?_line_none hv]
        simp
    | cons c body =>
      obtain rfl := hrest c rfl
      obtain ⟨n, k, hbodyPlan, hle, hbody⟩ :=
        heredocBody?_bytes hident (front ++ bytes (lead ++ label ++ v ++ ['\n']))
          (front.length + byteLength (lead ++ label ++ v ++ ['\n'])) body
      have hsplit : cs = (lead ++ label ++ v ++ ['\n']) ++ body := by simp [htext]
      have hstart : (front ++ bytes (lead ++ label)).length + byteLength v + 1 =
          front.length + byteLength (lead ++ label ++ v ++ ['\n']) := by
        simp [Nat.add_assoc]
        decide
      rw [← grow_front_text (heredocBody? · (bytes label) _), ← hsplit] at hbody
      have htake : ∀ j, byteLength (cs.take ((lead ++ label ++ v ++ ['\n']).length + j)) =
          byteLength (lead ++ label ++ v ++ ['\n']) + byteLength (body.take j) := by
        intro j
        rw [hsplit, List.take_length_add_append, byteLength_append]
      simp only [find?_line hv, hstart, hbody]
      refine ⟨(lead ++ label ++ v ++ ['\n']).length, n, k, _, ?_, ?_, ?_, .inr rfl⟩
      · rw [hplan, headerRest_line_feed, hbodyPlan]
        simp [Nat.add_assoc]
      · have hlen := congrArg List.length hsplit
        simp only [List.length_append] at hlen ⊢
        omega
      · have hhere := htake 0
        rw [List.take_zero, byteLength_nil, Nat.add_zero, Nat.add_zero] at hhere
        rw [Nat.add_assoc _ n k, htake, htake, hhere, List.length_append, length_bytes,
          Nat.add_assoc, Nat.add_assoc]

end SignatureInference.Source.Buffer
