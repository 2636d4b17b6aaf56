import SignatureInference.DocComment
import SignatureInference.Proofs.Text.Lowercase
import SignatureInference.Proofs.Text.Search
import SignatureInference.Proofs.Text.Splitting
import SignatureInference.Proofs.Text.Trimming

/-! # Tags as they are written

A doc comment is a list of lines, each a tag of a parameter, a tag of the result or a remark. A type
may hold blanks inside its brackets, and a description may follow a tag on its line. The reader
takes the frame off each line, splits the type off at the first blank that no bracket encloses, and
gets back the types as they are written, in order, whatever stands in the descriptions and remarks.
-/
namespace SignatureInference.DocComment

open Text

/-! ## What is written -/

/-- No bracket is closed before it is opened, and all of them are closed. -/
def IsBalanced (opening closing : Char) (cs : List Char) : Prop :=
  (∀ i ≤ cs.length, (cs.take i).count closing ≤ (cs.take i).count opening) ∧
  cs.count closing = cs.count opening

instance (opening closing : Char) (cs : List Char) : Decidable (IsBalanced opening closing cs) :=
  inferInstanceAs (Decidable (_ ∧ _))

def EndsInside (cs : List Char) : Prop :=
  cs.count '>' < cs.count '<' ∨ cs.count ')' < cs.count '(' ∨ cs.count '\x7d' < cs.count '\x7b'

instance (cs : List Char) : Decidable (EndsInside cs) := inferInstanceAs (Decidable (_ ∨ _))

/-- A type on one line, with balanced brackets and no blanks outside of them. -/
structure TypeText where
  text : List Char
  ne_nil : text ≠ []
  plain : ∀ c ∈ text, c ∉ ['\n', '*', '/', '$', '&']
  head_ne_dot : text.head? ≠ some '.'
  angles : IsBalanced '<' '>' text
  parentheses : IsBalanced '(' ')' text
  braces : IsBalanced '\x7b' '\x7d' text
  blanks : ∀ i, ∀ h : i < text.length, isBlank text[i] = true → EndsInside (text.take i)

/-- The name of a variable without its dollar sign. -/
structure VariableName where
  text : List Char
  start : text.head?.any isIdentStart = true
  parts : ∀ c ∈ text, isIdentPart c = true

def BeginsBlank (cs : List Char) : Prop := ∀ c ∈ cs.head?, isBlank c = true

instance (cs : List Char) : Decidable (BeginsBlank cs) :=
  decidableForallMemOption (isBlank · = true) cs.head?

structure Trailer where
  text : List Char
  one_line : '\n' ∉ text
  beginsBlank : BeginsBlank text

structure Remark where
  text : List Char
  one_line : '\n' ∉ text
  no_tag : (text.dropWhile isFrame).head? ≠ some '@'

def paramWord : List Char := "@param".toList

def returnWord : List Char := "@return".toList

def inheritMark : List Char := "\x7b@inheritdoc\x7d".toList

inductive DocLine where
  /-- A parameter, its type in front of its name. -/
  | typeFirst (type : TypeText) (name : VariableName) (trailer : Trailer)
  /-- A parameter, its name in front of its type. -/
  | nameFirst (name : VariableName) (type : TypeText) (trailer : Trailer)
  | result (type : TypeText) (trailer : Trailer)
  | remark (r : Remark)

namespace DocLine

def text : DocLine → List Char
  | typeFirst type name trailer =>
    paramWord ++ ' ' :: (type.text ++ ' ' :: '$' :: (name.text ++ trailer.text))
  | nameFirst name type trailer =>
    paramWord ++ ' ' :: '$' :: (name.text ++ ' ' :: (type.text ++ trailer.text))
  | result type trailer => returnWord ++ ' ' :: (type.text ++ trailer.text)
  | remark r => r.text

def tag? : DocLine → Option ParamTag
  | typeFirst type name _ => some ⟨String.ofList name.text, String.ofList type.text, none⟩
  | nameFirst name type _ => some ⟨String.ofList name.text, String.ofList type.text, none⟩
  | result _ _ => none
  | remark _ => none

def result? : DocLine → Option String
  | result type _ => some (String.ofList type.text)
  | _ => none

def framed (l : DocLine) : List Char := ' ' :: '*' :: ' ' :: l.text

/-- The line asks for the tags of the classes above, in any case of letters. -/
def AsksForInherited (l : DocLine) : Prop := inheritMark <:+: l.text.map Char.toLower

instance (l : DocLine) : Decidable l.AsksForInherited := inferInstanceAs (Decidable (_ <:+: _))

end DocLine

def comment (lines : List DocLine) : String :=
  String.ofList
    (['\n'].intercalate (['/', '*', '*'] :: (lines.map DocLine.framed ++ [[' ', '*', '/']])))

/-! ## Splitting off a token -/

/-- How many more brackets a text opens than it closes. -/
def level (cs : List Char) : Int :=
  (cs.count '<' + cs.count '(' + cs.count '\x7b' : Nat) -
    (cs.count '>' + cs.count ')' + cs.count '\x7d' : Nat)

@[simp] theorem level_nil : level [] = 0 := rfl

theorem level_append (u v : List Char) : level (u ++ v) = level u + level v := by
  simp only [level, List.count_append]
  omega

section

variable {c : Char} {depth : Int} {u rest cs : List Char}

theorem level_cons_opening (h : (c == '<' || c == '(' || c == '\x7b') = true) :
    level (c :: cs) = 1 + level cs := by
  simp only [Bool.or_eq_true, beq_iff_eq] at h
  rcases h with (rfl | rfl) | rfl
  · simp [level]; omega
  · simp [level]; omega
  · simp [level]; omega

theorem level_cons_closing (h : (c == '>' || c == ')' || c == '\x7d') = true) :
    level (c :: cs) = -1 + level cs := by
  simp only [Bool.or_eq_true, beq_iff_eq] at h
  rcases h with (rfl | rfl) | rfl
  · simp [level]; omega
  · simp [level]; omega
  · simp [level]; omega

theorem level_cons_plain (hopening : (c == '<' || c == '(' || c == '\x7b') = false)
    (hclosing : (c == '>' || c == ')' || c == '\x7d') = false) : level (c :: cs) = level cs := by
  simp only [Bool.or_eq_false_iff] at hopening hclosing
  simp [level, List.count_cons, hopening, hclosing]

/-- A text whose blanks are all enclosed by brackets belongs to the token as a whole. -/
theorem splitToken_append (h : ∀ front b back, u = front ++ b :: back → isBlank b = true →
    0 < depth + level front)
    (rest : List Char) :
    splitToken depth (u ++ rest) =
      (u ++ (splitToken (depth + level u) rest).1, (splitToken (depth + level u) rest).2) := by
  induction u generalizing depth with
  | nil => simp
  | cons c u ih =>
    -- what the first character does to the depth, it does to the level of every longer front
    have later : ∀ {step : Int}, (∀ front, level (c :: front) = step + level front) →
        splitToken (depth + step) (u ++ rest) =
          (u ++ (splitToken (depth + level (c :: u)) rest).1,
            (splitToken (depth + level (c :: u)) rest).2) := by
      intro step hstep
      rw [hstep, ← Int.add_assoc]
      apply ih
      intro front b back hu hb
      have hfront := h (c :: front) b back (congrArg (c :: ·) hu) hb
      rwa [hstep, ← Int.add_assoc] at hfront
    rw [List.cons_append, splitToken]
    by_cases hopening : (c == '<' || c == '(' || c == '\x7b') = true
    · rw [if_pos hopening, later fun front => level_cons_opening hopening]
      rfl
    · rw [if_neg hopening]
      by_cases hclosing : (c == '>' || c == ')' || c == '\x7d') = true
      · rw [if_pos hclosing, Int.sub_eq_add_neg, later fun front => level_cons_closing hclosing]
        rfl
      · rw [if_neg hclosing, if_neg]
        · have hplain := @later 0 fun front => by
            rw [level_cons_plain (by simpa using hopening) (by simpa using hclosing), Int.zero_add]
          rw [Int.add_zero] at hplain
          rw [hplain]
          rfl
        · rw [Bool.and_eq_true, decide_eq_true_eq]
          rintro ⟨hblank, hdepth⟩
          have hfront := h [] c u rfl hblank
          rw [level_nil] at hfront
          omega

theorem not_bracket_of_isBlank (h : isBlank c = true) :
    (c == '<' || c == '(' || c == '\x7b') = false ∧
      (c == '>' || c == ')' || c == '\x7d') = false := by
  have hne : ∀ d, isBlank d = false → (c == d) = false := by
    intro d hd
    rw [beq_eq_false_iff_ne]
    rintro rfl
    rw [h] at hd
    cases hd
  simp [hne '<' rfl, hne '(' rfl, hne '\x7b' rfl, hne '>' rfl, hne ')' rfl, hne '\x7d' rfl]

theorem splitToken_blank (h : BeginsBlank rest) : splitToken 0 rest = ([], rest) := by
  cases rest with
  | nil => rfl
  | cons c rest =>
    have hc : isBlank c = true := h c rfl
    obtain ⟨hopening, hclosing⟩ := not_bracket_of_isBlank hc
    simp [splitToken, hopening, hclosing, hc]

end

theorem BeginsBlank.of_isPrefix {cs front : List Char} (h : BeginsBlank cs)
    (hfront : front <+: cs) :
    BeginsBlank front := by
  obtain ⟨back, rfl⟩ := hfront
  cases front with
  | nil => simp [BeginsBlank]
  | cons c front => exact h

theorem BeginsBlank.trimEnd {cs : List Char} (h : BeginsBlank cs) : BeginsBlank (trimEnd cs) :=
  h.of_isPrefix (isPrefix_dropEndWhile cs)

theorem beginsBlank_space (cs : List Char) : BeginsBlank (' ' :: cs) := by
  simp [BeginsBlank, isBlank]

/-- Neither a blank nor a character of the frame stands at the end of a text. -/
def EndsSolid (u : List Char) : Prop := ∃ w c, u = w ++ [c] ∧ isBlank c = false ∧ isFrame c = false

namespace EndsSolid

variable {u v : List Char}

theorem ne_nil (h : EndsSolid u) : u ≠ [] := by
  obtain ⟨w, c, rfl, -⟩ := h
  simp

theorem append (h : EndsSolid v) (u : List Char) : EndsSolid (u ++ v) := by
  obtain ⟨w, c, rfl, hblank, hframe⟩ := h
  exact ⟨u ++ w, c, by simp, hblank, hframe⟩

theorem cons (h : EndsSolid v) (c : Char) : EndsSolid (c :: v) := h.append [c]

theorem trimEnd_append (h : EndsSolid u) (d : List Char) : trimEnd (u ++ d) = u ++ trimEnd d := by
  obtain ⟨w, c, rfl, hblank, -⟩ := h
  rw [List.append_assoc, List.singleton_append, trimEnd_stop hblank, List.append_assoc,
    List.singleton_append]

theorem dropFrame_append (h : EndsSolid u) (d : List Char) :
    dropEndWhile isFrame (u ++ d) = u ++ dropEndWhile isFrame d := by
  obtain ⟨w, c, rfl, -, hframe⟩ := h
  rw [List.append_assoc, List.singleton_append, dropEndWhile_stop hframe, List.append_assoc,
    List.singleton_append]

end EndsSolid

namespace TypeText

variable (t : TypeText) {front back : List Char} {b : Char}

theorem level_pos (htext : t.text = front ++ b :: back) (hb : isBlank b = true) :
    0 < level front := by
  have htake : t.text.take front.length = front := by rw [htext, List.take_left]
  have hlength : front.length < t.text.length := by simp [htext]
  have hinside := t.blanks front.length hlength (by simpa [htext] using hb)
  have hangles := t.angles.1 front.length hlength.le
  have hparentheses := t.parentheses.1 front.length hlength.le
  have hbraces := t.braces.1 front.length hlength.le
  rw [htake] at hinside hangles hparentheses hbraces
  unfold EndsInside at hinside
  unfold level
  omega

theorem level_text : level t.text = 0 := by
  have hangles := t.angles.2
  have hparentheses := t.parentheses.2
  have hbraces := t.braces.2
  unfold level
  omega

theorem splitToken_text {rest : List Char} (h : BeginsBlank rest) :
    splitToken 0 (t.text ++ rest) = (t.text, rest) := by
  have henclosed : ∀ front b back, t.text = front ++ b :: back → isBlank b = true →
      0 < 0 + level front := by
    intro front b back htext hb
    rw [Int.zero_add]
    exact t.level_pos htext hb
  rw [splitToken_append henclosed, t.level_text, Int.add_zero, splitToken_blank h, List.append_nil]

theorem exists_cons : ∃ c cs, t.text = c :: cs ∧ isBlank c = false ∧ c ∉ ['$', '&', '.'] := by
  obtain ⟨c, cs, htext⟩ := List.exists_cons_of_ne_nil t.ne_nil
  have hplain := t.plain c (by simp [htext])
  have hdot := t.head_ne_dot
  refine ⟨c, cs, htext, ?_, by simp_all⟩
  rw [← Bool.not_eq_true]
  intro hc
  exact absurd (@level_pos t [] cs c htext hc) (by decide)

theorem endsSolid : EndsSolid t.text := by
  obtain ⟨cs, c, htext⟩ := (List.eq_nil_or_concat' t.text).resolve_left t.ne_nil
  have hplain := t.plain c (by simp [htext])
  have hblank : isBlank c = false := by
    rw [← Bool.not_eq_true]
    intro hc
    -- a blank at the end would still be enclosed by a bracket that is never closed
    have hpos := t.level_pos htext hc
    have hlevel := t.level_text
    obtain ⟨hopening, hclosing⟩ := not_bracket_of_isBlank hc
    rw [htext, level_append, level_cons_plain hopening hclosing, level_nil] at hlevel
    omega
  refine ⟨cs, c, htext, hblank, ?_⟩
  simp only [List.mem_cons, List.not_mem_nil, or_false, not_or] at hplain
  have hspace : c ≠ ' ' := by
    rintro rfl
    cases hblank
  simp [isFrame, hplain, hspace]

end TypeText

namespace VariableName

variable (n : VariableName)

theorem not_mem_text {d : Char} (hd : isIdentPart d = false) : d ∉ n.text := by
  intro hmem
  rw [n.parts d hmem] at hd
  cases hd

theorem endsSolid : EndsSolid n.text := by
  have hne : n.text ≠ [] := by
    intro hnil
    have hstart := n.start
    rw [hnil] at hstart
    cases hstart
  obtain ⟨cs, c, htext⟩ := (List.eq_nil_or_concat' n.text).resolve_left hne
  have hc := n.parts c (by simp [htext])
  refine ⟨cs, c, htext, isBlank_of_isIdentPart hc, ?_⟩
  rw [← Bool.not_eq_true]
  intro hframe
  simp only [isFrame, Bool.or_eq_true, beq_iff_eq] at hframe
  rcases hframe with (rfl | rfl) | rfl <;> cases hc

theorem splitToken_variable {rest : List Char} (h : BeginsBlank rest) :
    splitToken 0 ('$' :: (n.text ++ rest)) = ('$' :: n.text, rest) := by
  have hblank : ∀ c ∈ '$' :: n.text, isBlank c = false :=
    List.forall_mem_cons.mpr ⟨by decide, fun c hc => isBlank_of_isIdentPart (n.parts c hc)⟩
  have henclosed : ∀ front b back, '$' :: n.text = front ++ b :: back → isBlank b = true →
      0 < 0 + level front := by
    intro front b back htext hb
    rw [hblank b (by simp [htext])] at hb
    cases hb
  have hcount : ∀ d, isIdentPart d = false → n.text.count d = 0 := fun d hd =>
    List.count_eq_zero_of_not_mem (n.not_mem_text hd)
  have hlevel : level ('$' :: n.text) = 0 := by
    rw [level_cons_plain (by decide) (by decide), level, hcount '<' rfl, hcount '(' rfl,
      hcount '\x7b' rfl, hcount '>' rfl, hcount ')' rfl, hcount '\x7d' rfl]
    rfl
  rw [← List.cons_append, splitToken_append henclosed, hlevel, Int.add_zero, splitToken_blank h,
    List.append_nil]

theorem any_eq_false {o : Option Char} (ho : ∀ c ∈ o, c ∈ n.text) {p : Char → Bool}
    (hp : ∀ c, p c = true → isIdentPart c = false) : o.any p = false := by
  cases o with
  | none => rfl
  | some c =>
    rw [Option.any_some, ← Bool.not_eq_true]
    exact fun hc => n.not_mem_text (hp c hc) (ho c rfl)

theorem variableName_text : variableName ('$' :: n.text) = String.ofList n.text := by
  have hlead : ∀ c, (c == '&' || c == '.' || c == '$') = true → isIdentPart c = false := by
    intro c hc
    simp only [Bool.or_eq_true, beq_iff_eq] at hc
    rcases hc with (rfl | rfl) | rfl <;> rfl
  have hend : ∀ c, (c == ',' || c == ';') = true → isIdentPart c = false := by
    intro c hc
    simp only [Bool.or_eq_true, beq_iff_eq] at hc
    rcases hc with rfl | rfl <;> rfl
  rw [variableName, List.dropWhile_cons_of_pos (by decide),
    dropWhile_of_head (n.any_eq_false (fun c hc => List.mem_of_head? hc) hlead),
    dropEndWhile_of_last (n.any_eq_false (fun c hc => List.mem_of_getLast? hc) hend)]

end VariableName

/-! ## Tags of parameters -/

theorem trim_blank_append {u : List Char} (hhead : u.head?.any isBlank = false) (hend : EndsSolid u)
    (d : List Char) :
    trim (' ' :: (u ++ d)) = u ++ trimEnd d := by
  have hstart : trimStart (' ' :: (u ++ d)) = u ++ d := by
    rw [trimStart, List.dropWhile_cons_of_pos (by decide), dropWhile_of_head]
    rwa [List.head?_append_of_ne_nil u hend.ne_nil]
  rw [trim, hstart, hend.trimEnd_append]

theorem endsTagName_space (cs : List Char) : endsTagName (' ' :: cs) = true := rfl

theorem isVariable_dollar (cs : List Char) : isVariable ('$' :: cs) = true := rfl

section

variable (t : TypeText) (n : VariableName) {trailer : List Char} (h : BeginsBlank trailer)

include h

theorem readParam?_typeFirst : readParam? (' ' :: (t.text ++ ' ' :: '$' :: (n.text ++ trailer))) =
    some ⟨String.ofList n.text, String.ofList t.text, none⟩ := by
  obtain ⟨c, cs, htext, hblank, hvariable⟩ := t.exists_cons
  have htrim : trim (' ' :: (t.text ++ ' ' :: '$' :: (n.text ++ trailer))) =
      t.text ++ ' ' :: '$' :: (n.text ++ trimEnd trailer) := by
    have hsolid : EndsSolid (t.text ++ ' ' :: '$' :: n.text) :=
      ((n.endsSolid.cons '$').cons ' ').append t.text
    simpa using trim_blank_append (by simpa [htext] using hblank) hsolid trailer
  have htrim' : trim (' ' :: '$' :: (n.text ++ trimEnd trailer)) =
      '$' :: (n.text ++ trimEnd (trimEnd trailer)) :=
    trim_blank_append rfl (n.endsSolid.cons '$') _
  have hnot : isVariable (t.text ++ ' ' :: '$' :: (n.text ++ trimEnd trailer)) = false := by
    simp only [List.mem_cons, List.not_mem_nil, or_false, not_or] at hvariable
    simp [isVariable, htext, hvariable, startsWith, dropHead?, Ne.symm hvariable.1]
  have hsplit := t.splitToken_text (beginsBlank_space ('$' :: (n.text ++ Text.trimEnd trailer)))
  simp [readParam?, endsTagName_space, htrim, hsplit, htrim',
    n.splitToken_variable h.trimEnd.trimEnd, hnot, isVariable_dollar, n.variableName_text]

theorem readParam?_nameFirst : readParam? (' ' :: '$' :: (n.text ++ ' ' :: (t.text ++ trailer))) =
    some ⟨String.ofList n.text, String.ofList t.text, none⟩ := by
  obtain ⟨c, cs, htext, hblank, -⟩ := t.exists_cons
  have htrim : trim (' ' :: '$' :: (n.text ++ ' ' :: (t.text ++ trailer))) =
      '$' :: (n.text ++ ' ' :: (t.text ++ trimEnd trailer)) := by
    have hsolid : EndsSolid ('$' :: (n.text ++ ' ' :: t.text)) :=
      ((t.endsSolid.cons ' ').append n.text).cons '$'
    simpa using trim_blank_append rfl hsolid trailer
  have htrim' : trim (' ' :: (t.text ++ trimEnd trailer)) = t.text ++ trimEnd (trimEnd trailer) :=
    trim_blank_append (by simpa [htext] using hblank) t.endsSolid _
  have hsplit := n.splitToken_variable (beginsBlank_space (t.text ++ Text.trimEnd trailer))
  simp [readParam?, endsTagName_space, htrim, hsplit, htrim', t.splitToken_text h.trimEnd.trimEnd,
    isVariable_dollar, n.variableName_text]

theorem splitToken_result : (splitToken 0 (trim (' ' :: (t.text ++ trailer)))).1 = t.text := by
  obtain ⟨c, cs, htext, hblank, -⟩ := t.exists_cons
  rw [trim_blank_append (by simpa [htext] using hblank) t.endsSolid, t.splitToken_text h.trimEnd]

end

/-! ## Lines -/

theorem bareLine_dropReturn (line : List Char) : bareLine (dropReturn line) = bareLine line := by
  rw [dropReturn]
  cases h : dropLast? ['\r'] line with
  | none => rfl
  | some rest =>
    obtain ⟨back, hback, rfl⟩ := Option.map_eq_some_iff.mp h
    have hline : line = back.reverse ++ ['\r'] := by
      simpa using congrArg List.reverse (eq_append_of_dropHead? hback)
    have htrim := @trim_blanks [] ['\r'] (by simp) (by decide) back.reverse
    rw [List.nil_append, ← hline] at htrim
    rw [Option.getD_some, bareLine, bareLine, htrim]

theorem isInfix_bareLine (line : List Char) : bareLine line <:+: line := by
  obtain ⟨u, v, hline, -, -⟩ := exists_blanks_trim line
  have htrim : trim line <:+: line := ⟨u, v, by rw [List.append_assoc, ← hline]⟩
  exact ((isPrefix_dropEndWhile _).isInfix.trans (List.dropWhile_suffix isFrame).isInfix).trans
    htrim

theorem trim_framed (cs : List Char) :
    trim (' ' :: '*' :: ' ' :: cs) = '*' :: trimEnd (' ' :: cs) := by
  have hstart : trimStart (' ' :: '*' :: ' ' :: cs) = '*' :: ' ' :: cs := rfl
  rw [trim, hstart]
  exact @trimEnd_stop '*' (by decide) [] (' ' :: cs)

/-- Taking the frame off a line with a tag can shorten what follows the tag, and leaves the tag
itself. -/
theorem exists_bareLine_tag {u : List Char} (hhead : u.head? = some '@') (hend : EndsSolid u)
    (trailer : List Char) :
    ∃ front, front <+: trailer ∧ bareLine (' ' :: '*' :: ' ' :: (u ++ trailer)) = u ++ front := by
  refine ⟨dropEndWhile isFrame (trimEnd trailer),
    (isPrefix_dropEndWhile _).trans (isPrefix_dropEndWhile trailer), ?_⟩
  obtain ⟨cs, rfl⟩ := List.head?_eq_some_iff.mp hhead
  have htrim : trimEnd (' ' :: ('@' :: cs ++ trailer)) = ' ' :: ('@' :: cs ++ trimEnd trailer) :=
    (hend.cons ' ').trimEnd_append trailer
  have hdrop : ('*' :: ' ' :: ('@' :: cs ++ trimEnd trailer)).dropWhile isFrame =
      '@' :: cs ++ trimEnd trailer := rfl
  rw [bareLine, trim_framed, htrim, hdrop, hend.dropFrame_append]

theorem head?_of_isPrefix {u v : List Char} {c : Char} (h : u <+: v) (hu : u.head? = some c) :
    v.head? = some c := by
  obtain ⟨back, rfl⟩ := h
  rw [List.head?_append, hu, Option.some_or]

theorem head_bareLine_remark (r : Remark) :
    (bareLine (' ' :: '*' :: ' ' :: r.text)).head? ≠ some '@' := by
  have hstar : ('*' :: trimEnd (' ' :: r.text)).dropWhile isFrame =
      (trimEnd (' ' :: r.text)).dropWhile isFrame := rfl
  obtain ⟨blanks, htext⟩ : trimEnd (' ' :: r.text) <+: ' ' :: r.text := isPrefix_dropEndWhile _
  rw [bareLine, trim_framed, hstar]
  intro hhead
  -- the tag would begin the remark already before its end was trimmed
  have hbare := head?_of_isPrefix (isPrefix_dropEndWhile _) hhead
  have hwhole : ((' ' :: r.text).dropWhile isFrame).head? = some '@' := by
    rw [← htext, List.dropWhile_append]
    split
    · next hempty =>
      rw [List.isEmpty_iff.mp hempty] at hbare
      cases hbare
    · rw [List.head?_append, hbare, Option.some_or]
  exact r.no_tag hwhole

/-! ## Reading -/

section

variable {doc : DocComment} {line rest : List Char}
  (hmark : contains inheritMark (lower (bareLine line)) = false)

include hmark

theorem readLine_param {tag : ParamTag} (hline : bareLine line = paramWord ++ rest)
    (htag : readParam? rest = some tag) :
    doc.readLine line = { doc with params := doc.params ++ [tag] } := by
  have hparam : dropHead? paramWord (bareLine line) = some rest := by rw [hline, dropHead?_append]
  unfold inheritMark at hmark
  unfold paramWord at hparam
  simp only [readLine, hmark, Bool.false_eq_true, if_false, hparam, htag]

theorem readLine_result (hline : bareLine line = returnWord ++ ' ' :: rest) :
    doc.readLine line =
      { doc with
        returnType :=
          doc.returnType.or (some (String.ofList (splitToken 0 (trim (' ' :: rest))).1)) } := by
  have hparam : dropHead? paramWord (bareLine line) = none := by
    rw [hline]
    rfl
  have hreturn : dropHead? returnWord (bareLine line) = some (' ' :: rest) := by
    rw [hline, dropHead?_append]
  unfold inheritMark at hmark
  unfold paramWord at hparam
  unfold returnWord at hreturn
  simp only [readLine, hmark, Bool.false_eq_true, if_false, hparam, hreturn, endsTagName_space,
    Bool.and_true]
  obtain ⟨params, returnType, returnOrigin, inherits⟩ := doc
  cases returnType with
  | none => rfl
  | some text => rfl

theorem readLine_remark (hhead : (bareLine line).head? ≠ some '@') : doc.readLine line = doc := by
  have hnone : ∀ word : List Char, word.head? = some '@' → dropHead? word (bareLine line) = none :=
    fun word hword =>
    dropHead?_eq_none_iff.mpr fun hbegins => hhead (head?_of_isPrefix hbegins hword)
  have hparam := hnone paramWord rfl
  have hreturn := hnone returnWord rfl
  have hinherit : sameIgnoringAsciiCase (String.ofList (bareLine line)) "@inheritdoc" = false := by
    rw [sameIgnoringAsciiCase, String.toList_ofList, beq_eq_false_iff_ne]
    intro hsame
    have hfirst := congrArg List.head? hsame
    rw [List.head?_map, List.head?_map] at hfirst
    obtain ⟨c, hc, hlower⟩ := Option.map_eq_some_iff.mp hfirst
    have hat : c = '@' := by
      cases hupper : c.isUpper with
      | true =>
        have hsmall := isLower_toLower hupper
        rw [hlower] at hsmall
        exact absurd hsmall (by decide)
      | false =>
        rw [toLower_of_not_isUpper hupper] at hlower
        exact hlower
    exact hhead (hat ▸ hc)
  unfold inheritMark at hmark
  unfold paramWord at hparam
  unfold returnWord at hreturn
  simp only [readLine, hmark, Bool.false_eq_true, if_false, hparam, hreturn, hinherit]

end

namespace DocLine

theorem not_contains_inheritMark {l : DocLine} (h : ¬l.AsksForInherited) :
    contains inheritMark (lower (bareLine l.framed)) = false := by
  have hword : ∀ d ∈ inheritMark, isAscii d = true ∧ d ≠ 'k' := by decide
  have hframed : l.framed.map Char.toLower = [' ', '*'] ++ ' ' :: l.text.map Char.toLower := rfl
  rw [← Bool.not_eq_true, contains_iff]
  intro hmark
  have hline : inheritMark <:+: l.framed.map Char.toLower :=
    (infix_map_of_lowerAfter hword (by decide) hmark).trans ((isInfix_bareLine l.framed).map _)
  rw [hframed, infix_append_cons_iff (by decide)] at hline
  rcases hline with hframe | htext
  · exact absurd hframe (by decide)
  · exact h htext

/-- A line adds the tag that is written on it. -/
theorem readLine_framed (doc : DocComment) {l : DocLine} (h : ¬l.AsksForInherited) :
    doc.readLine l.framed =
      { doc with
        params := doc.params ++ l.tag?.toList
        returnType := doc.returnType.or l.result? } := by
  have hmark := not_contains_inheritMark h
  cases l with
  | typeFirst type name trailer =>
    have hend : EndsSolid (paramWord ++ ' ' :: (type.text ++ ' ' :: '$' :: name.text)) :=
      ((((name.endsSolid.cons '$').cons ' ').append type.text).cons ' ').append paramWord
    obtain ⟨front, hfront, hbare⟩ := exists_bareLine_tag rfl hend trailer.text
    have hline : bareLine (typeFirst type name trailer).framed =
        paramWord ++ ' ' :: (type.text ++ ' ' :: '$' :: (name.text ++ front)) := by
      simpa [framed, text] using hbare
    rw [readLine_param hmark hline
      (readParam?_typeFirst type name (trailer.beginsBlank.of_isPrefix hfront))]
    simp [tag?, result?]
  | nameFirst name type trailer =>
    have hend : EndsSolid (paramWord ++ ' ' :: '$' :: (name.text ++ ' ' :: type.text)) :=
      ((((type.endsSolid.cons ' ').append name.text).cons '$').cons ' ').append paramWord
    obtain ⟨front, hfront, hbare⟩ := exists_bareLine_tag rfl hend trailer.text
    have hline : bareLine (nameFirst name type trailer).framed =
        paramWord ++ ' ' :: '$' :: (name.text ++ ' ' :: (type.text ++ front)) := by
      simpa [framed, text] using hbare
    rw [readLine_param hmark hline
      (readParam?_nameFirst type name (trailer.beginsBlank.of_isPrefix hfront))]
    simp [tag?, result?]
  | result type trailer =>
    have hend : EndsSolid (returnWord ++ ' ' :: type.text) :=
      (type.endsSolid.cons ' ').append returnWord
    obtain ⟨front, hfront, hbare⟩ := exists_bareLine_tag rfl hend trailer.text
    have hline : bareLine (result type trailer).framed =
        returnWord ++ ' ' :: (type.text ++ front) := by
      simpa [framed, text] using hbare
    rw [readLine_result hmark hline,
      splitToken_result type (trailer.beginsBlank.of_isPrefix hfront)]
    simp [tag?, result?]
  | remark r =>
    rw [readLine_remark hmark (head_bareLine_remark r)]
    simp [tag?, result?]

end DocLine

theorem readLine_dropReturn (doc : DocComment) (line : List Char) :
    doc.readLine (dropReturn line) = doc.readLine line := by
  rw [readLine, readLine, bareLine_dropReturn]

theorem foldl_readLine (doc : DocComment) {lines : List DocLine}
    (h : ∀ l ∈ lines, ¬l.AsksForInherited) :
    (lines.map fun l => dropReturn l.framed).foldl readLine doc =
      { doc with
        params := doc.params ++ lines.filterMap DocLine.tag?
        returnType := doc.returnType.or (lines.findSome? DocLine.result?) } := by
  induction lines generalizing doc with
  | nil => simp
  | cons l lines ih =>
    have hrest := ih
      { doc with
        params := doc.params ++ l.tag?.toList
        returnType := doc.returnType.or l.result? }
      fun other hother => h other (List.mem_cons_of_mem _ hother)
    rw [List.map_cons, List.foldl_cons, readLine_dropReturn,
      DocLine.readLine_framed doc (h l List.mem_cons_self), hrest]
    simp only [List.filterMap_cons, List.findSome?_cons, List.append_assoc, Option.or_assoc]
    congr 2
    · cases l.tag? <;> rfl
    · cases l.result? <;> rfl

theorem newline_not_mem_framed (l : DocLine) : '\n' ∉ l.framed := by
  have htype (t : TypeText) : '\n' ∉ t.text := fun hmem => t.plain _ hmem List.mem_cons_self
  have hname (n : VariableName) : '\n' ∉ n.text := n.not_mem_text rfl
  have hparam : '\n' ∉ paramWord := by decide
  have hreturn : '\n' ∉ returnWord := by decide
  cases l with
  | typeFirst type name trailer =>
    simp [DocLine.framed, DocLine.text, hparam, htype, hname, trailer.one_line]
  | nameFirst name type trailer =>
    simp [DocLine.framed, DocLine.text, hparam, htype, hname, trailer.one_line]
  | result type trailer => simp [DocLine.framed, DocLine.text, hreturn, htype, trailer.one_line]
  | remark r => simp [DocLine.framed, DocLine.text, r.one_line]

theorem lines_intercalate {front : List (List Char)} {last : List Char} (hlast : last ≠ [])
    (h : ∀ piece ∈ front ++ [last], '\n' ∉ piece) :
    Text.lines (['\n'].intercalate (front ++ [last])) = front.map dropReturn ++ [last] := by
  rw [Text.lines, splitWhere_intercalate (by simp) h]
  simp [hlast]

theorem lines_comment (lines : List DocLine) :
    Text.lines (comment lines).toList =
      ['/', '*', '*'] :: ((lines.map fun l => dropReturn l.framed) ++ [[' ', '*', '/']]) := by
  have hpieces : ∀ piece ∈ ['/', '*', '*'] :: (lines.map DocLine.framed ++ [[' ', '*', '/']]),
      '\n' ∉ piece := by
    intro piece hpiece
    simp only [List.mem_cons, List.mem_append, List.mem_map, List.not_mem_nil, or_false] at hpiece
    rcases hpiece with rfl | ⟨l, -, rfl⟩ | rfl
    · decide
    · exact newline_not_mem_framed l
    · decide
  have hopen : dropReturn ['/', '*', '*'] = ['/', '*', '*'] := by decide
  rw [← List.cons_append] at hpieces
  rw [comment, String.toList_ofList, ← List.cons_append, lines_intercalate (by simp) hpieces,
    List.map_cons, hopen, List.map_map, List.cons_append]
  rfl

/-- The tags of a comment are read as they are written: the parameters with their types in order,
and the type of the first result. -/
theorem tags_read_as_written {lines : List DocLine} (h : ∀ l ∈ lines, ¬l.AsksForInherited) :
    ofText (comment lines) =
      { params := lines.filterMap DocLine.tag?
        returnType := lines.findSome? DocLine.result?
        returnOrigin := none
        inherits := false } := by
  have hopen : readLine {} ['/', '*', '*'] = {} := by decide
  have hclose (doc : DocComment) : doc.readLine [' ', '*', '/'] = doc :=
    readLine_remark (by decide) (by decide)
  rw [ofText, lines_comment, List.foldl_cons, List.foldl_append, hopen, foldl_readLine {} h,
    List.foldl_cons, hclose]
  simp

def mapType : TypeText where
  text := "array<int, string>".toList
  ne_nil := by decide
  plain := by decide
  head_ne_dot := by decide
  angles := by decide
  parentheses := by decide
  braces := by decide
  blanks := by decide

def mapLines : List DocLine :=
  [.remark ⟨"See @param.".toList, by decide, by decide⟩,
   .typeFirst mapType ⟨"map".toList, by decide, by decide⟩
     ⟨" the $map".toList, by decide, by decide⟩,
   .nameFirst ⟨"rest".toList, by decide, by decide⟩ mapType ⟨[], by decide, by decide⟩,
   .result mapType ⟨"\t*/".toList, by decide, by decide⟩]

theorem tags_read_as_written_maps :
    (∀ l ∈ mapLines, ¬l.AsksForInherited) ∧
      ofText (comment mapLines) =
        { params := [⟨"map", "array<int, string>", none⟩, ⟨"rest", "array<int, string>", none⟩]
          returnType := some "array<int, string>"
          returnOrigin := none
          inherits := false } := by
  have hplain : ∀ l ∈ mapLines, ¬l.AsksForInherited := by decide
  exact ⟨hplain, tags_read_as_written hplain⟩

end SignatureInference.DocComment
