import Mathlib.Data.List.Induction
import SignatureInference.Proofs.Source.MaskInsertion

/-! # Names in front of code

What masking hides ends with a mark that closes it, or with its line, or with the text. So the end
of what is hidden in front of code that is shown is never part of a name: a name right in front of
such code is shown too.
-/
namespace SignatureInference.Source

open Text

/-- A plan that blanks a character of a name in front of code goes on to blank the code, unless the
code is the end of the text. -/
def HidesAfterName : List Ink → List Char → Prop
  | ink :: inks, d :: c :: cs =>
    (ink = .blank → isIdentPart d = true → isCode c = true → cs ≠ [] → inks.head? = some .blank) ∧
      HidesAfterName inks (c :: cs)
  | _, _ => True

def BlanksCode (f : List Char → List Ink) : Prop :=
  ∀ c z, isCode c = true → z ≠ [] → (f (c :: z)).head? = some .blank

section

variable {ink : Ink} {inks : List Ink} {d : Char} {cs v : List Char} {f : List Char → List Ink}

theorem hidesAfterName_nil (cs : List Char) : HidesAfterName [] cs := by
  cases cs with
  | nil => trivial
  | cons c cs => cases cs <;> trivial

theorem HidesAfterName.cons (h : HidesAfterName inks cs)
    (hnext : ink = .blank → isIdentPart d = true →
      ∀ c z, cs = c :: z → isCode c = true → z ≠ [] → inks.head? = some .blank) :
    HidesAfterName (ink :: inks) (d :: cs) := by
  cases cs with
  | nil => trivial
  | cons c cs => exact ⟨fun hink hd hc hcs => hnext hink hd c cs rfl hc hcs, h⟩

theorem HidesAfterName.tail (h : HidesAfterName (ink :: inks) (d :: cs)) :
    HidesAfterName inks cs := by
  cases cs with
  | nil => cases inks <;> trivial
  | cons c cs => exact h.2

theorem HidesAfterName.cons_keep (h : HidesAfterName inks cs) :
    HidesAfterName (.keep :: inks) (d :: cs) :=
  h.cons fun hink => by cases hink

theorem HidesAfterName.cons_mark (h : HidesAfterName inks cs) (hd : isIdentPart d = false) :
    HidesAfterName (ink :: inks) (d :: cs) :=
  h.cons fun _ hpart => by
    rw [hd] at hpart
    cases hpart

theorem HidesAfterName.cons_plan (h : HidesAfterName (f cs) cs) (hf : BlanksCode f) :
    HidesAfterName (ink :: f cs) (d :: cs) :=
  h.cons fun _ _ c z hcs hc hz => by
    rw [hcs]
    exact hf c z hc hz

theorem HidesAfterName.keeps {n : Nat} (h : HidesAfterName inks (cs.drop n)) :
    HidesAfterName (List.replicate n .keep ++ inks) cs := by
  induction n generalizing cs with
  | zero => exact h
  | succ n ih =>
    cases cs with
    | nil => trivial
    | cons d cs => exact (ih h).cons_keep

theorem HidesAfterName.marks (h : HidesAfterName inks cs) (hv : ∀ d ∈ v, isIdentPart d = false) :
    HidesAfterName (List.replicate v.length .blank ++ inks) (v ++ cs) := by
  induction v with
  | nil => exact h
  | cons d v ih =>
    exact (ih fun e he => hv e (List.mem_cons_of_mem _ he)).cons_mark (hv d List.mem_cons_self)

end

/-! ## The plans of tokens -/

theorem blanksCode_lineComment : BlanksCode lineCommentPlan := by
  intro c z hc _
  rw [lineCommentPlan_cons]
  · rfl
  · rcases isCode_cases hc with rfl | rfl | rfl | rfl <;> decide
  · rintro rfl
    exact absurd hc (by decide)

theorem hidesAfterName_lineComment (cs : List Char) : HidesAfterName (lineCommentPlan cs) cs := by
  induction cs with
  | nil => trivial
  | cons e cs ih =>
    by_cases hend : e = '\n' ∨ e = '?' ∧ cs.head? = some '>'
    · have hnil : lineCommentPlan (e :: cs) = [] := by
        rcases hend with rfl | ⟨rfl, hhead⟩
        · rfl
        · obtain ⟨cs, rfl⟩ := List.head?_eq_some_iff.mp hhead
          rfl
      rw [hnil]
      exact hidesAfterName_nil _
    · rw [not_or, not_and] at hend
      rw [lineCommentPlan_cons hend.1 hend.2]
      exact ih.cons_plan blanksCode_lineComment

theorem blanksCode_blockComment : BlanksCode blockCommentPlan := by
  intro c z hc _
  rw [blockCommentPlan_cons]
  · rfl
  · rintro rfl
    exact absurd hc (by decide)

theorem hidesAfterName_blockComment (cs : List Char) : HidesAfterName (blockCommentPlan cs) cs := by
  induction cs with
  | nil => trivial
  | cons e cs ih =>
    by_cases hend : e = '*' ∧ cs.head? = some '/'
    · obtain ⟨rfl, hhead⟩ := hend
      obtain ⟨cs, rfl⟩ := List.head?_eq_some_iff.mp hhead
      exact ((hidesAfterName_nil cs).cons_mark (by decide)).cons_mark (by decide)
    · rw [not_and] at hend
      rw [blockCommentPlan_cons hend]
      exact ih.cons_plan blanksCode_blockComment

theorem blanksCode_string {quote : Char} (hcode : isCode quote = false) :
    BlanksCode (stringPlan quote) := by
  intro c z hc hz
  rw [stringPlan_other _ _ hz]
  · rfl
  · rcases isCode_cases hc with rfl | rfl | rfl | rfl <;> decide
  · rintro rfl
    rw [hc] at hcode
    cases hcode

theorem hidesAfterName_string {quote : Char} (hquote : quote ≠ '\\') (hcode : isCode quote = false)
    (cs : List Char) : HidesAfterName (stringPlan quote cs) cs := by
  induction cs using List.twoStepInduction with
  | nil => trivial
  | singleton e =>
    rw [stringPlan]
    split <;> trivial
  | cons_cons e d cs ih ihnext =>
    by_cases hq : e = quote
    · subst hq
      rw [stringPlan_quote hquote]
      exact (hidesAfterName_nil _).cons_keep
    by_cases he : e = '\\'
    · subst he
      cases cs with
      | nil => exact (show HidesAfterName [.lastByte] [d] from trivial).cons_mark (by decide)
      | cons c cs =>
        rw [stringPlan_escape quote d (List.cons_ne_nil c cs)]
        exact (ih.cons_plan (blanksCode_string hcode)).cons_mark (by decide)
    · rw [stringPlan_other he hq (List.cons_ne_nil d cs)]
      exact (ihnext d).cons_plan (blanksCode_string hcode)

theorem blanksCode_attribute (depth : Nat) (quote : Option Char) :
    BlanksCode (attributePlan depth quote) := by
  intro c z hc _
  rw [attributePlan_cons]
  · rfl
  · rintro - rfl
    exact absurd hc (by decide)
  · rintro - rfl
    exact absurd hc (by decide)

theorem hidesAfterName_attribute_cons {depth : Nat} {quote : Option Char} {e : Char}
    {cs : List Char} (hescape : ¬(quote.isSome ∧ e = '\\'))
    (ih : ∀ depth quote, HidesAfterName (attributePlan depth quote cs) cs) :
    HidesAfterName (attributePlan depth quote (e :: cs)) (e :: cs) := by
  by_cases hclose : quote = none ∧ e = ']' ∧ depth ≤ 1
  · obtain ⟨rfl, rfl, hdepth⟩ := hclose
    rw [attributePlan_close hdepth]
    exact (hidesAfterName_nil cs).cons_mark (by decide)
  · rw [attributePlan_cons]
    · exact (ih _ _).cons_plan (blanksCode_attribute _ _)
    · exact fun h he => hescape ⟨h, he⟩
    · intro h he
      by_contra hd
      exact hclose ⟨h, he, by omega⟩

theorem hidesAfterName_attribute (depth : Nat) (quote : Option Char) (cs : List Char) :
    HidesAfterName (attributePlan depth quote cs) cs := by
  induction cs using List.twoStepInduction generalizing depth quote with
  | nil => trivial
  | singleton e =>
    by_cases hescape : quote.isSome ∧ e = '\\'
    · obtain ⟨hq, rfl⟩ := hescape
      obtain ⟨q, rfl⟩ := Option.isSome_iff_exists.mp hq
      exact (hidesAfterName_nil []).cons_mark (by decide)
    · exact hidesAfterName_attribute_cons hescape fun _ _ => trivial
  | cons_cons e d cs ih ihnext =>
    by_cases hescape : quote.isSome ∧ e = '\\'
    · obtain ⟨hq, rfl⟩ := hescape
      obtain ⟨q, rfl⟩ := Option.isSome_iff_exists.mp hq
      rw [attributePlan_escape]
      exact ((ih depth (some q)).cons_plan (blanksCode_attribute depth _)).cons_mark (by decide)
    · exact hidesAfterName_attribute_cons hescape (ihnext d)

theorem isIdentPart_of_isIndent {c : Char} (h : isIndent c = true) : isIdentPart c = false := by
  have : c = ' ' ∨ c = '\t' := by simpa [isIndent] using h
  rcases this with rfl | rfl <;> decide

theorem hidesAfterName_heredocBody (label : List Char) (atLineStart : Bool) (cs : List Char) :
    HidesAfterName (heredocBodyPlan label atLineStart cs) cs := by
  induction cs generalizing atLineStart with
  | nil => trivial
  | cons e cs ih =>
    rw [heredocBodyPlan]
    split
    · have hlabel : HidesAfterName (List.replicate label.length .keep ++ [])
          ((e :: cs).dropWhile isIndent) := (hidesAfterName_nil _).keeps
      have hindent := hlabel.marks (v := (e :: cs).takeWhile isIndent) fun d hd =>
        isIdentPart_of_isIndent (List.mem_takeWhile_imp hd)
      rwa [List.takeWhile_append_dropWhile, List.append_nil] at hindent
    · refine (ih _).cons fun _ he c z hcs _ _ => ?_
      -- behind a name the line goes on, and no label can stand there
      have hline : (e == '\n') = false := by
        simp only [beq_eq_false_iff_ne]
        rintro rfl
        exact absurd he (by decide)
      rw [hcs, hline, heredocBodyPlan_next rfl]
      rfl

theorem afterQuote_suffix (cs : List Char) : afterQuote cs <:+ cs := by
  have hsuffix := List.dropWhile_suffix (l := cs) isIndent
  unfold afterQuote
  split
  · next c ds hd =>
    rw [hd] at hsuffix
    split
    · exact (List.suffix_cons c ds).trans hsuffix
    · exact hsuffix
  · exact List.nil_suffix

theorem hidesAfterName_headerRest (label w : List Char) :
    HidesAfterName (headerRest label w).2 (w.drop (headerRest label w).1) := by
  unfold headerRest
  cases hbody : w.dropWhile (· != '\n') with
  | nil => exact hidesAfterName_nil _
  | cons c body =>
    have hsuffix : body <:+ w := by
      have hrest := List.dropWhile_suffix (l := w) (· != '\n')
      rw [hbody] at hrest
      exact (List.suffix_cons c body).trans hrest
    simp only
    rw [← List.suffix_iff_eq_drop.mp hsuffix]
    exact hidesAfterName_heredocBody label true body

theorem hidesAfterName_heredoc (cs : List Char) : HidesAfterName (heredocPlan cs) cs := by
  rw [heredocPlan_eq]
  split
  · exact hidesAfterName_nil cs
  · refine HidesAfterName.keeps ?_
    rw [← List.drop_drop, ← List.suffix_iff_eq_drop.mp (afterQuote_suffix cs)]
    exact hidesAfterName_headerRest _ _

theorem hidesAfterName_plan (cs : List Char) : HidesAfterName (plan cs) cs := by
  unfold plan
  split
  · exact hidesAfterName_lineComment _
  · next cs =>
    exact ((hidesAfterName_attribute 1 none cs).cons_mark (by decide)).cons_mark (by decide)
  · next cs _ => exact (hidesAfterName_lineComment cs).cons_mark (by decide)
  · next cs =>
    exact ((hidesAfterName_blockComment cs).cons_mark (by decide)).cons_mark (by decide)
  · exact (hidesAfterName_string (by decide) (by decide) _).cons_keep
  · exact (hidesAfterName_string (by decide) (by decide) _).cons_keep
  · exact (hidesAfterName_string (by decide) (by decide) _).cons_keep
  · exact (hidesAfterName_heredoc _).cons_keep.cons_keep.cons_keep
  · exact hidesAfterName_nil _

/-! ## Masked sources -/

theorem beginsToken_of_isIdentPart {e : Char} (h : isIdentPart e = true) :
    beginsToken e = false := by
  by_contra hbegins
  simp only [beginsToken, Bool.not_eq_false, Bool.or_eq_true, beq_iff_eq] at hbegins
  rcases hbegins with ((((rfl | rfl) | rfl) | rfl) | rfl) | rfl <;> revert h <;> decide

theorem HidesAfterName.nextInk {pending : List Ink} {e : Char} {cs : List Char}
    (h : HidesAfterName pending (e :: cs)) : HidesAfterName (nextInk pending (e :: cs)).2 cs := by
  cases pending with
  | cons ink inks => exact h.tail
  | nil =>
    have hplan := hidesAfterName_plan (e :: cs)
    rw [nextInk_nil]
    unfold firstInk
    split
    · next ink inks heq =>
      rw [heq] at hplan
      exact hplan.tail
    · exact hidesAfterName_nil cs

theorem eq_of_ink {ink : Ink} {c : Char} {shown : List Char} (h : ink.apply c = some shown)
    (hink : ink ≠ .blank) : shown = [c] := by
  cases ink with
  | keep => exact (Option.some.inj h).symm
  | blank => exact absurd rfl hink
  | lastByte =>
    rw [Ink.apply] at h
    split at h
    · exact (Option.some.inj h).symm
    · cases h

section

variable {pending : List Ink} {c : Char} {r b : List Char}

theorem nextInk_ne_blank {e : Char} (hpending : HidesAfterName pending (e :: c :: r))
    (hc : isCode c = true) (hr : r ≠ []) (he : isIdentPart e = true)
    (h : maskFrom? (nextInk pending (e :: c :: r)).2 (c :: r) = some (c :: b)) :
    (nextInk pending (e :: c :: r)).1 ≠ .blank := by
  intro hblank
  cases pending with
  | nil =>
    rw [nextInk_nil, plan_of_not_beginsToken (beginsToken_of_isIdentPart he)] at hblank
    cases hblank
  | cons ink inks =>
    have hhead : inks.head? = some .blank := hpending.1 hblank he hc hr
    have hfirst : inks[0]? = some .blank := by rwa [← List.head?_eq_getElem?]
    exact not_code_of_blank (u := []) (a := []) hc h rfl hfirst

/-- The last character of a name in front of code that is shown is shown too. -/
theorem getLast?_of_maskFrom? {u a : List Char} (hpending : HidesAfterName pending (u ++ c :: r))
    (hc : isCode c = true) (hr : r ≠ []) (h : maskFrom? pending (u ++ c :: r) = some (a ++ c :: b))
    (hlen : byteLength a = byteLength u) {e : Char} (he : e ∈ u.getLast?)
    (hpart : isIdentPart e = true) :
    e ∈ a.getLast? := by
  induction u generalizing pending a with
  | nil => cases he
  | cons d u ih =>
    rw [List.cons_append] at h hpending
    obtain ⟨shown, a, rfl, hshown, hrest, hlen⟩ := exists_of_maskFrom?_cons h hlen
    rw [List.getLast?_append]
    cases u with
    | nil =>
      obtain rfl : d = e := by simpa using he
      obtain rfl := eq_nil_of_byteLength_eq_zero hlen
      rw [eq_of_ink hshown (nextInk_ne_blank hpending hc hr hpart hrest)]
      simp
    | cons x u =>
      have he : e ∈ (x :: u).getLast? := by simpa [List.getLast?_cons_cons] using he
      rw [Option.mem_def.mp (ih hpending.nextInk hrest hlen he)]
      rfl

end

/-- Code that a masked source shows stands at the same place in the source. A name right in front of
it is shown too. -/
theorem exists_append_of_mask_code {source a b : List Char} {c : Char} (hc : isCode c = true)
    (hb : b ≠ []) (h : mask source = a ++ c :: b) :
    ∃ u w, source = u ++ c :: w ∧ byteLength u = byteLength a ∧
      ∀ d ∈ u.getLast?, isIdentPart d = true → d ∈ a.getLast? := by
  rw [mask] at h
  cases hmask : mask? source with
  | none =>
    rw [hmask] at h
    exact ⟨a, b, h, rfl, fun d hd _ => hd⟩
  | some masked =>
    rw [hmask] at h
    obtain rfl : masked = a ++ c :: b := h
    have hne : c ≠ ' ' := by rcases isCode_cases hc with rfl | rfl | rfl | rfl <;> decide
    obtain ⟨u, w, inks, rfl, hlen, hrest, -⟩ := exists_of_maskFrom? hne hmask
    have hw : w ≠ [] := by
      rintro rfl
      exact hb (Option.some.inj hrest).symm
    exact ⟨u, w, rfl, hlen, fun d hd => getLast?_of_maskFrom?
      (hidesAfterName_nil _) hc hw hmask hlen.symm hd⟩

end SignatureInference.Source
