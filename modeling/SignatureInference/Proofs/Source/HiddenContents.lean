import SignatureInference.Proofs.Source.MaskedNames
import SignatureInference.Proofs.Source.WholeTokens
import SignatureInference.Source.Span

/-! # Hidden contents

The contents of a string or a comment do not matter to what is masked before, around and behind it.
A token before it either ends there, and then it is marked by what stands before it, or it takes in
the opening mark.
-/
namespace SignatureInference.Source.Buffer

open Text

/-! ## Tokens that end before a mark -/

def BeginsMark (x : Char) : Prop := IsQuote x ∨ x = '/'

theorem BeginsMark.cases {x : Char} (hx : BeginsMark x) :
    x = '\'' ∨ x = '"' ∨ x = '\x60' ∨ x = '/' := by
  rcases hx with (rfl | rfl | rfl) | rfl <;> simp

/-- Where a plan ends in front of a mark, it does not depend on what follows the mark. -/
def EndsAlike (x : Char) (f : List Char → List Ink) (s : List Char) : Prop :=
  ∀ w w', (f (s ++ x :: w)).length ≤ s.length → (f (s ++ x :: w')).length ≤ s.length →
    f (s ++ x :: w) = f (s ++ x :: w')

section

variable {x : Char} {f g : List Char → List Ink} {v s : List Char}

theorem EndsAlike.append (h : EndsAlike x g s) (inks : List Ink) (hlen : inks.length = v.length)
    (hstep : ∀ w, f (v ++ (s ++ x :: w)) = inks ++ g (s ++ x :: w)) : EndsAlike x f (v ++ s) := by
  intro w w' hw hw'
  rw [List.append_assoc, hstep, List.length_append, List.length_append] at hw hw'
  rw [List.append_assoc, List.append_assoc, hstep, hstep, h w w' (by omega) (by omega)]

theorem EndsAlike.cons {e : Char} (h : EndsAlike x g s) (ink : Ink)
    (hstep : ∀ w, f (e :: (s ++ x :: w)) = ink :: g (s ++ x :: w)) : EndsAlike x f (e :: s) :=
  EndsAlike.append (v := [e]) h [ink] rfl hstep

theorem endsAlike_of_eq (l : List Ink) (h : ∀ w, f (s ++ x :: w) = l) : EndsAlike x f s :=
  fun w w' _ _ => (h w).trans (h w').symm

theorem endsAlike_of_lt (h : ∀ w, s.length < (f (s ++ x :: w)).length) : EndsAlike x f s :=
  fun w _ hw _ => absurd hw (Nat.not_le.mpr (h w))

end

section

variable {x : Char} (hx : BeginsMark x)

include hx

theorem endsAlike_lineCommentPlan (s : List Char) : EndsAlike x lineCommentPlan s := by
  have hplain : x ≠ '\n' ∧ x ≠ '?' ∧ x ≠ '>' := by
    rcases hx.cases with rfl | rfl | rfl | rfl <;> decide
  induction s with
  | nil =>
    refine endsAlike_of_lt fun w => ?_
    rw [List.nil_append, lineCommentPlan_cons hplain.1 fun h => absurd h hplain.2.1]
    exact Nat.succ_pos _
  | cons e s ih =>
    by_cases hline : e = '\n'
    · exact endsAlike_of_eq [] fun w => by rw [hline]; rfl
    by_cases hend : e = '?' ∧ s.head? = some '>'
    · obtain ⟨rfl, hs⟩ := hend
      obtain ⟨s, rfl⟩ := List.head?_eq_some_iff.mp hs
      exact endsAlike_of_eq [] fun w => rfl
    refine ih.cons .blank fun w => lineCommentPlan_cons hline fun he => ?_
    cases s with
    | nil => simpa using hplain.2.2
    | cons d s => exact fun h => hend ⟨he, h⟩

theorem endsAlike_blockCommentPlan (s : List Char) : EndsAlike x blockCommentPlan s := by
  have hplain : x ≠ '*' := by rcases hx.cases with rfl | rfl | rfl | rfl <;> decide
  induction s with
  | nil =>
    refine endsAlike_of_lt fun w => ?_
    rw [List.nil_append, blockCommentPlan_cons fun h => absurd h hplain]
    exact Nat.succ_pos _
  | cons e s ih =>
    by_cases hend : e = '*' ∧ (s ++ [x]).head? = some '/'
    · obtain ⟨rfl, hs⟩ := hend
      cases s with
      | nil =>
        obtain rfl : x = '/' := by simpa using hs
        exact endsAlike_of_lt fun w => by simp [blockCommentPlan, blockCommentLength]
      | cons d s =>
        obtain rfl : d = '/' := by simpa using hs
        exact endsAlike_of_eq [.blank, .blank] fun w => rfl
    refine ih.cons .blank fun w => blockCommentPlan_cons fun he h => hend ⟨he, ?_⟩
    cases s <;> exact h

omit hx in
theorem endsAlike_stringPlan {quote : Char} (hquote : quote ≠ '\\') (s : List Char) :
    EndsAlike x (stringPlan quote) s := by
  have hne : ∀ s w : List Char, s ++ x :: w ≠ [] := by simp
  induction hn : s.length using Nat.strong_induction_on generalizing s with
  | h n ih =>
    subst hn
    cases s with
    | nil =>
      refine endsAlike_of_lt fun w => List.length_pos_iff.mpr ?_
      generalize hall : [] ++ x :: w = all
      cases quoted hquote all with
      | closed body rest hplan => simp [hplan]
      | empty => cases hall
      | unclosed body d _ hplan => simp [hplan]
    | cons e s =>
      by_cases hq : e = quote
      · subst hq
        exact endsAlike_of_eq [.keep] fun w => stringPlan_quote hquote _
      by_cases he : e = '\\'
      · subst he
        cases s with
        | nil =>
          refine endsAlike_of_lt fun w => ?_
          have hlen := stringLength_escape quote x w
          rw [stringLength] at hlen
          rw [List.cons_append, List.nil_append, hlen]
          exact Nat.lt_add_left _ (by decide)
        | cons d s =>
          exact (ih _ (by simp) s rfl).append (v := ['\\', d]) [.blank, .blank] rfl fun w =>
            stringPlan_escape quote d (hne s w)
      · exact (ih _ (by simp) s rfl).cons .blank fun w => stringPlan_other he hq (hne s w)

omit hx in
theorem attributePlan_pos (depth : Nat) (quote : Option Char) (e : Char) (w : List Char) :
    0 < (attributePlan depth quote (e :: w)).length := by
  by_cases hescape : quote.isSome ∧ e = '\\'
  · obtain ⟨hq, rfl⟩ := hescape
    obtain ⟨q, rfl⟩ := Option.isSome_iff_exists.mp hq
    cases w with
    | nil => exact Nat.one_pos
    | cons d w =>
      rw [attributePlan_escape]
      exact Nat.succ_pos _
  by_cases hclose : quote = none ∧ e = ']' ∧ depth ≤ 1
  · obtain ⟨rfl, rfl, hdepth⟩ := hclose
    rw [attributePlan_close hdepth]
    exact Nat.one_pos
  · rw [attributePlan_cons (fun h he => hescape ⟨h, he⟩) fun h he => Nat.lt_of_not_le fun hd =>
      hclose ⟨h, he, hd⟩]
    exact Nat.succ_pos _

omit hx in
theorem endsAlike_attributePlan (depth : Nat) (quote : Option Char) (s : List Char) :
    EndsAlike x (attributePlan depth quote) s := by
  induction hn : s.length using Nat.strong_induction_on generalizing s depth quote with
  | h n ih =>
    subst hn
    cases s with
    | nil => exact endsAlike_of_lt fun w => attributePlan_pos depth quote x w
    | cons e s =>
      by_cases hescape : quote.isSome ∧ e = '\\'
      · obtain ⟨hq, rfl⟩ := hescape
        obtain ⟨q, rfl⟩ := Option.isSome_iff_exists.mp hq
        cases s with
        | nil =>
          refine endsAlike_of_lt fun w => ?_
          rw [List.cons_append, List.nil_append, attributePlan_escape]
          simp
        | cons d s =>
          exact (ih _ (by simp) depth (some q) s rfl).append (v := ['\\', d]) [.blank,
            .blank] rfl fun w =>
            attributePlan_escape depth q d _
      by_cases hclose : quote = none ∧ e = ']' ∧ depth ≤ 1
      · obtain ⟨rfl, rfl, hdepth⟩ := hclose
        exact endsAlike_of_eq [.blank] fun w => attributePlan_close hdepth _
      · refine (ih _ (by simp) _ _ s rfl).cons .blank fun w => attributePlan_cons ?_ ?_ _
        · exact fun h he => hescape ⟨h, he⟩
        · intro h he
          by_contra hd
          exact hclose ⟨h, he, by omega⟩

/-! ### Heredocs -/

theorem BeginsMark.isIdentPart_eq_false : isIdentPart x = false := by
  rcases hx.cases with rfl | rfl | rfl | rfl <;> decide

theorem BeginsMark.isIndent_eq_false : isIndent x = false := by
  rcases hx.cases with rfl | rfl | rfl | rfl <;> decide

theorem closesHeredoc_mark {label : List Char} (hlabel : ∀ d ∈ label, isIdentPart d = true)
    (u : List Char) :
    (∀ w, closesHeredoc label (u ++ x :: w) = false) ∨
      ∀ w, closesHeredoc label (u ++ x :: w) = true := by
  have hident := hx.isIdentPart_eq_false
  have hnot : ¬u ++ [x] <+: label := by
    intro h
    have := hlabel x (h.subset (by simp))
    rw [hident] at this
    cases this
  have happend : ∀ w, u ++ x :: w = (u ++ [x]) ++ w := by simp
  rcases closesHeredoc_cases hnot with h | ⟨h, -⟩
  · exact .inl fun w => by rw [happend, h]
  · exact .inr fun w => by rw [happend, h]

theorem endsAlike_heredocBodyPlan {label : List Char} (hlabel : ∀ d ∈ label, isIdentPart d = true)
    (hne : label ≠ []) (atLineStart : Bool) (s : List Char) :
    EndsAlike x (heredocBodyPlan label atLineStart) s := by
  have hindent := hx.isIndent_eq_false
  have hident := hx.isIdentPart_eq_false
  induction s generalizing atLineStart with
  | nil =>
    refine endsAlike_of_lt fun w => ?_
    have hopen : closesHeredoc label (([] ++ x :: w).dropWhile isIndent) = false := by
      apply closesHeredoc_eq_false
      rw [List.nil_append, List.dropWhile_cons_of_neg (by simp [hindent])]
      intro h
      obtain ⟨d, label, rfl⟩ := List.exists_cons_of_ne_nil hne
      have := hlabel d List.mem_cons_self
      rw [(List.cons_prefix_cons.mp h).1, hident] at this
      cases this
    rw [List.nil_append,
      heredocBodyPlan_next (by rw [List.nil_append] at hopen; rw [hopen, Bool.and_false])]
    exact Nat.succ_pos _
  | cons e s ih =>
    have hdrop : ∀ w, (e :: (s ++ x :: w)).dropWhile isIndent =
        (e :: s).dropWhile isIndent ++ x :: w :=
      fun w => dropWhile_stop hindent (e :: s) w
    rcases closesHeredoc_mark hx hlabel ((e :: s).dropWhile isIndent) with hopen | hclose
    · refine (ih (e == '\n')).cons .blank fun w => heredocBodyPlan_next ?_
      rw [hdrop, hopen, Bool.and_false]
    · cases atLineStart with
      | false => exact (ih (e == '\n')).cons .blank fun w => heredocBodyPlan_next rfl
      | true =>
        refine endsAlike_of_eq
          (List.replicate ((e :: s).takeWhile isIndent).length .blank ++
            List.replicate label.length .keep) fun w => ?_
        rw [heredocBodyPlan_close (by simp) (by rw [List.cons_append, hdrop, hclose]),
          takeWhile_stop hindent (e :: s) w]

omit hx in
theorem afterQuote_append {s : List Char} (h : s.dropWhile isIndent ≠ []) (w : List Char) :
    afterQuote (s ++ w) = afterQuote s ++ w := by
  have hdrop : (s ++ w).dropWhile isIndent = s.dropWhile isIndent ++ w := by
    rw [List.dropWhile_append, if_neg (by simpa using h)]
  unfold afterQuote
  rw [hdrop]
  obtain ⟨e, r, he⟩ := List.exists_cons_of_ne_nil h
  rw [he, List.cons_append]
  dsimp only
  split <;> rfl

theorem heredocPlan_blank {s : List Char} (hblank : s.dropWhile isIndent = []) (w : List Char) :
    heredocPlan (s ++ x :: w) = [] ∨ s.length < (heredocPlan (s ++ x :: w)).length := by
  have hdrop : (s ++ x :: w).dropWhile isIndent = x :: w := by
    rw [dropWhile_stop hx.isIndent_eq_false, hblank]
    rfl
  rw [heredocPlan_eq]
  by_cases hlabel : (afterQuote (s ++ x :: w)).takeWhile isIdentPart = []
  · exact .inl (if_pos hlabel)
  · have hafter : afterQuote (s ++ x :: w) = w := by
      unfold afterQuote at hlabel ⊢
      rw [hdrop] at hlabel ⊢
      dsimp only at hlabel ⊢
      split
      · rfl
      · next hquote =>
        rw [if_neg hquote, List.takeWhile_cons_of_neg (by simp [hx.isIdentPart_eq_false])] at hlabel
        exact absurd rfl hlabel
    rw [if_neg hlabel, hafter]
    simp only [List.length_append, List.length_replicate, List.length_cons]
    exact .inr (by omega)

theorem endsAlike_heredocPlan (s : List Char) : EndsAlike x heredocPlan s := by
  have hident := hx.isIdentPart_eq_false
  by_cases hblank : s.dropWhile isIndent = []
  · intro w w' hw hw'
    have hnil := (heredocPlan_blank hx hblank w).resolve_right (Nat.not_lt.mpr hw)
    have hnil' := (heredocPlan_blank hx hblank w').resolve_right (Nat.not_lt.mpr hw')
    rw [hnil, hnil']
  have happend := afterQuote_append hblank
  obtain ⟨l, hl⟩ := afterQuote_suffix s
  have hlabel : ∀ w, (afterQuote (s ++ x :: w)).takeWhile isIdentPart =
      (afterQuote s).takeWhile isIdentPart := by
    intro w
    rw [happend, takeWhile_stop hident]
  by_cases hempty : (afterQuote s).takeWhile isIdentPart = []
  · refine endsAlike_of_eq [] fun w => ?_
    rw [heredocPlan_eq, hlabel, if_pos hempty]
  have hplan : ∀ w, heredocPlan (s ++ x :: w) =
      List.replicate (l.length + (headerRest ((afterQuote s).takeWhile isIdentPart)
        (afterQuote s ++ x :: w)).1) .keep ++
        (headerRest ((afterQuote s).takeWhile isIdentPart) (afterQuote s ++ x :: w)).2 := by
    intro w
    have hlen : (s ++ x :: w).length - (afterQuote s ++ x :: w).length = l.length := by
      have := congrArg List.length hl
      simp only [List.length_append] at this ⊢
      omega
    rw [heredocPlan_eq, hlabel, if_neg hempty, happend, hlen]
  by_cases hline : '\n' ∈ afterQuote s
  · obtain ⟨v, body, hbody, hv⟩ := List.eq_append_cons_of_mem hline
    have hs : s = (l ++ v ++ ['\n']) ++ body := by rw [← hl, hbody]; simp
    have hparts : ∀ d ∈ (afterQuote s).takeWhile isIdentPart, isIdentPart d = true :=
      fun d => List.mem_takeWhile_imp
    generalize (afterQuote s).takeWhile isIdentPart = label at *
    rw [hs]
    refine (endsAlike_heredocBodyPlan hx hparts hempty true body).append
      (List.replicate (l ++ v ++ ['\n']).length .keep) (by simp) fun w => ?_
    rw [← List.append_assoc, ← hs, hplan, hbody, List.append_assoc, headerRest_append label hv,
      List.cons_append, headerRest_line_feed]
    simp
  · refine endsAlike_of_lt fun w => ?_
    have hmark : '\n' ∉ [x] := by
      rcases hx.cases with rfl | rfl | rfl | rfl <;> decide
    rw [hplan, headerRest_append _ hline, ← List.singleton_append, headerRest_append _ hmark]
    have := congrArg List.length hl
    simp only [List.length_append, List.length_replicate, List.length_singleton] at this ⊢
    omega

/-! ### All tokens -/

theorem endsAlike_plan {s : List Char} (hs : s ≠ []) : EndsAlike x plan s := by
  obtain ⟨e, s, rfl⟩ := List.exists_cons_of_ne_nil hs
  have hhead : ∀ {d : Char} (w : List Char), d ≠ x → s.head? ≠ some d →
      (s ++ x :: w).head? ≠ some d := by
    intro d w hd hne
    cases s with
    | nil => simpa using hd.symm
    | cons e s => exact hne
  have hplain : x ≠ '[' ∧ x ≠ '*' ∧ x ≠ '<' := by
    rcases hx.cases with rfl | rfl | rfl | rfl <;> decide
  by_cases htoken : beginsToken e = false
  · exact endsAlike_of_eq [] fun w => plan_of_not_beginsToken htoken (s ++ x :: w)
  by_cases hquote : IsQuote e
  · exact (endsAlike_stringPlan (ne_backslash_of_isQuote hquote) s).cons .keep fun w =>
      plan_quote hquote (s ++ x :: w)
  by_cases hslash : e = '/'
  · subst hslash
    by_cases hline : (s ++ [x]).head? = some '/'
    · refine (endsAlike_lineCommentPlan hx ('/' :: s)).append (v := []) [] rfl fun w => ?_
      cases s with
      | nil =>
        obtain rfl : x = '/' := by simpa using hline
        rfl
      | cons d s =>
        obtain rfl : d = '/' := by simpa using hline
        rfl
    by_cases hblock : s.head? = some '*'
    · obtain ⟨s, rfl⟩ := List.head?_eq_some_iff.mp hblock
      exact (endsAlike_blockCommentPlan hx s).append (v := ['/', '*']) [.blank, .blank] rfl
        fun w => rfl
    · refine endsAlike_of_eq [] fun w => plan_slash ?_ (hhead w hplain.2.1.symm hblock)
      cases s <;> exact hline
  by_cases hhash : e = '#'
  · subst hhash
    by_cases hattribute : s.head? = some '['
    · obtain ⟨s, rfl⟩ := List.head?_eq_some_iff.mp hattribute
      exact (endsAlike_attributePlan 1 none s).append (v := ['#', '[']) [.blank, .blank] rfl
        fun w => rfl
    · exact (endsAlike_lineCommentPlan hx s).cons .blank fun w =>
        plan_hash (hhead w hplain.1.symm hattribute)
  have hbegins := beginsToken_cases (by simpa using htoken)
  obtain rfl := ((hbegins.resolve_left hslash).resolve_left hhash).resolve_left hquote
  by_cases hheredoc : ['<', '<'] <+: s
  · obtain ⟨s, rfl⟩ := hheredoc
    exact (endsAlike_heredocPlan hx s).append (v := ['<', '<', '<']) [.keep, .keep, .keep] rfl
      fun w => rfl
  · refine endsAlike_of_eq [] fun w => plan_angle fun h => hheredoc (begins_of_begins_append ?_ h)
    rintro c hc
    obtain rfl := Option.some.inj hc
    simpa using hplain.2.2

theorem endsAlike_tokenPlan {s : List Char} (hs : s ≠ []) : EndsAlike x tokenPlan s := by
  intro w w' hw hw'
  have hle : ∀ cs, (plan cs).length ≤ (tokenPlan cs).length := by
    intro cs
    unfold tokenPlan
    split
    · next h =>
      rw [h]
      exact Nat.zero_le _
    · exact le_rfl
  have heq := endsAlike_plan hx hs w w' ((hle _).trans hw) ((hle _).trans hw')
  unfold tokenPlan
  rw [heq]

end

/-! ## Two sources -/

theorem Whole.cases {front rest : List Char} (h : Whole front rest) :
    front = [] ∨ ∃ t f, front = t ++ f ∧ (tokenPlan (front ++ rest)).length = t.length ∧
      Whole f rest := by
  cases h with
  | nil => exact .inl rfl
  | @token t f _ ht h => exact .inr ⟨t, f, rfl, by rwa [List.append_assoc], h⟩

/-- What stands before a mark is masked alike in two sources, if the mark stands between tokens in
both. -/
theorem maskBytes_before_mark {x : Char} (hx : BeginsMark x) {front w w' : List Char}
    (h : Whole front (x :: w)) (h' : Whole front (x :: w')) :
    ∃ before, maskBytes [] (front ++ x :: w) = before ++ maskBytes [] (x :: w) ∧
      maskBytes [] (front ++ x :: w') = before ++ maskBytes [] (x :: w') := by
  induction hn : front.length using Nat.strong_induction_on generalizing front with
  | h n ih =>
    subst hn
    rcases h.cases with rfl | ⟨t, f, hfront, ht, hrest⟩
    · exact ⟨[], rfl, rfl⟩
    rcases h'.cases with rfl | ⟨t', f', hfront', ht', hrest'⟩
    · exact ⟨[], rfl, rfl⟩
    have hne := ne_nil_of_length_tokenPlan ht
    have hle : ∀ {a b : List Char}, front = a ++ b → a.length ≤ front.length := by
      intro a b hab
      rw [hab, List.length_append]
      exact Nat.le_add_right ..
    have hfull : front ≠ [] := by
      rw [hfront]
      simp [hne]
    have hplan := endsAlike_tokenPlan hx hfull w w' (ht ▸ hle hfront) (ht' ▸ hle hfront')
    obtain ⟨rfl, rfl⟩ := List.append_inj (hfront.symm.trans hfront') (by rw [← ht, ← ht', hplan])
    subst hfront
    rw [List.append_assoc] at ht ht'
    rw [List.append_assoc, List.append_assoc] at hplan
    have hlt : f.length < (t ++ f).length := by
      have := List.length_pos_iff.mpr hne
      rw [List.length_append]
      omega
    obtain ⟨before, hbefore, hbefore'⟩ := ih _ hlt hrest hrest' rfl
    refine ⟨inked (tokenPlan (t ++ (f ++ x :: w))) t ++ before, ?_, ?_⟩
    · rw [List.append_assoc, maskBytes_token ht, hbefore, List.append_assoc]
    · rw [List.append_assoc, maskBytes_token ht', hbefore', ← hplan, List.append_assoc]

inductive Encloses : List Char → List Char → List Char → Prop
  | string {q : Char} {cs : List Char} (hq : IsQuote q) (hquote : q ∉ cs) (hescape : '\\' ∉ cs) :
      Encloses [q] cs [q]
  | comment {cs : List Char} (hend : ¬['*', '/'] <:+: cs) : Encloses ['/', '*'] cs ['*', '/']

theorem stringPlan_contents {q : Char} (hq : q ≠ '\\') {cs : List Char} (hquote : q ∉ cs)
    (hescape : '\\' ∉ cs) (rest : List Char) :
    stringPlan q (cs ++ q :: rest) = List.replicate cs.length .blank ++ [.keep] := by
  induction cs with
  | nil => exact stringPlan_quote hq rest
  | cons c cs ih =>
    rw [List.mem_cons, not_or] at hquote hescape
    rw [List.cons_append, stringPlan_other (Ne.symm hescape.1) (Ne.symm hquote.1) (by simp),
      ih hquote.2 hescape.2]
    rfl

theorem blockCommentPlan_contents {cs : List Char} (hend : ¬['*', '/'] <:+: cs) (rest : List Char) :
    blockCommentPlan (cs ++ '*' :: '/' :: rest) =
      List.replicate (cs ++ ['*', '/']).length .blank := by
  induction cs with
  | nil => rfl
  | cons c cs ih =>
    rw [List.cons_append, blockCommentPlan_cons,
      ih fun h => hend (h.trans (List.suffix_cons c cs).isInfix)]
    · rfl
    · rintro rfl
      cases cs with
      | nil => simp
      | cons d cs =>
        rw [List.cons_append, List.head?_cons, ne_eq, Option.some.injEq]
        rintro rfl
        exact hend ⟨[], cs, rfl⟩

theorem maskBytes_string {q : Char} (hq : IsQuote q) {cs : List Char} (hquote : q ∉ cs)
    (hescape : '\\' ∉ cs) (rest : List Char) :
    maskBytes [] (q :: (cs ++ q :: rest)) =
      String.utf8EncodeChar q ++ ((bytes cs).map blankByte ++
        (String.utf8EncodeChar q ++ maskBytes [] rest)) := by
  have hplan : tokenPlan ((q :: (cs ++ [q])) ++ rest) =
      .keep :: (List.replicate cs.length .blank ++ [.keep]) := by
    have hcontents := stringPlan_contents (ne_backslash_of_isQuote hq) hquote hescape rest
    rw [List.cons_append, List.append_assoc]
    exact tokenPlan_of_cons ((plan_quote hq _).trans (congrArg _ hcontents))
  have htoken := maskBytes_token (t := q :: (cs ++ [q])) (z := rest) (by rw [hplan]; simp)
  rw [hplan, inked, inked_append (by simp), inked_blank, inked, inked_nil] at htoken
  simpa [inkBytes] using htoken

theorem maskBytes_comment {cs : List Char} (hend : ¬['*', '/'] <:+: cs) (rest : List Char) :
    maskBytes [] ('/' :: '*' :: (cs ++ '*' :: '/' :: rest)) =
      (bytes ('/' :: '*' :: (cs ++ ['*', '/']))).map blankByte ++ maskBytes [] rest := by
  have hplan : tokenPlan (('/' :: '*' :: (cs ++ ['*', '/'])) ++ rest) =
      List.replicate ('/' :: '*' :: (cs ++ ['*', '/'])).length .blank := by
    have hcontents := blockCommentPlan_contents hend rest
    rw [List.cons_append, List.cons_append, List.append_assoc]
    exact tokenPlan_of_cons (congrArg (fun inks => Ink.blank :: Ink.blank :: inks) hcontents)
  have htoken := maskBytes_token (t := '/' :: '*' :: (cs ++ ['*', '/'])) (z := rest)
    (by rw [hplan, List.length_replicate])
  rw [hplan, inked_blank] at htoken
  simpa using htoken

/-- How contents are masked depends on their length and their line feeds only. -/
theorem maskBytes_contents {opening cs cs' closing : List Char} (h : Encloses opening cs closing)
    (h' : Encloses opening cs' closing) (hcs : (bytes cs).map blankByte = (bytes cs').map blankByte)
    (rest : List Char) :
    maskBytes [] (opening ++ (cs ++ (closing ++ rest))) =
      maskBytes [] (opening ++ (cs' ++ (closing ++ rest))) := by
  cases h with
  | string hq hquote hescape =>
    cases h' with
    | string _ hquote' hescape' =>
      have hmask := maskBytes_string hq hquote hescape rest
      rw [hcs, ← maskBytes_string hq hquote' hescape' rest] at hmask
      exact hmask
  | comment hend =>
    cases h' with
    | comment hend' =>
      have hmask := maskBytes_comment hend rest
      have hmarks : (bytes ('/' :: '*' :: (cs ++ ['*', '/']))).map blankByte =
          (bytes ('/' :: '*' :: (cs' ++ ['*', '/']))).map blankByte := by
        simp [hcs]
      rw [hmarks, ← maskBytes_comment hend' rest] at hmask
      exact hmask

theorem map_blankByte_eq {cs cs' : List Char} (hlen : byteLength cs = byteLength cs')
    (hlines : ∀ i : Nat, (bytes cs)[i]? = some '\n'.toUInt8 ↔ (bytes cs')[i]? = some '\n'.toUInt8) :
    (bytes cs).map blankByte = (bytes cs').map blankByte := by
  apply List.ext_getElem
  · simp [hlen]
  · intro i hi hi'
    rw [List.length_map] at hi hi'
    have hline := hlines i
    rw [List.getElem?_eq_getElem hi, List.getElem?_eq_getElem hi', Option.some.injEq,
      Option.some.injEq] at hline
    rw [List.getElem_map, List.getElem_map, blankByte, blankByte]
    by_cases h : (bytes cs)[i] = '\n'.toUInt8
    · rw [if_pos h, if_pos (hline.mp h), h, hline.mp h]
    · rw [if_neg h, if_neg (mt hline.mpr h)]

theorem beginsMark_of_encloses {opening cs closing : List Char} (h : Encloses opening cs closing) :
    ∃ x more, opening = x :: more ∧ BeginsMark x := by
  cases h with
  | @string q _ hq _ _ => exact ⟨q, [], rfl, .inl hq⟩
  | comment _ => exact ⟨'/', ['*'], rfl, .inr rfl⟩

theorem whole_of_code {front rest : List Char} (h : ∀ c ∈ front, beginsToken c = false) :
    Whole front rest := by
  induction front with
  | nil => exact .nil rest
  | cons c front ih =>
    refine .token (t := [c]) ?_ (ih fun d hd => h d (List.mem_cons_of_mem _ hd))
    rw [List.singleton_append,
      tokenPlan_of_nil (plan_of_not_beginsToken (h c List.mem_cons_self) _)]
    rfl

/-- Contents of a string or a comment do not matter to what is scanned: other contents of the same
length, with line feeds at the same offsets, give the same masked text and the same declarations. -/
theorem scan_eq_of_encloses {front opening cs cs' closing rest source source' : List Char}
    (h : Encloses opening cs closing) (h' : Encloses opening cs' closing)
    (hsource : source = front ++ (opening ++ (cs ++ (closing ++ rest))))
    (hsource' : source' = front ++ (opening ++ (cs' ++ (closing ++ rest))))
    (hlen : byteLength cs = byteLength cs')
    (hlines : ∀ i : Nat, (bytes cs)[i]? = some '\n'.toUInt8 ↔ (bytes cs')[i]? = some '\n'.toUInt8)
    (hvisits : Visits (bytes source) (byteLength front))
    (hvisits' : Visits (bytes source') (byteLength front)) :
    mask? source = mask? source' ∧
      (mask? source ≠ none →
        mask source = mask source' ∧ classSpans (mask source) = classSpans (mask source') ∧
          (∀ start stop, functionSpans (mask source) start stop =
            functionSpans (mask source') start stop) ∧
          ∀ classes, freeFunctions (mask source) classes =
            freeFunctions (mask source') classes) := by
  subst hsource hsource'
  obtain ⟨x, more, rfl, hx⟩ := beginsMark_of_encloses h
  have hbytes : maskBytes [] (front ++ (x :: more ++ (cs ++ (closing ++ rest)))) =
      maskBytes [] (front ++ (x :: more ++ (cs' ++ (closing ++ rest)))) := by
    obtain ⟨before, hbefore, hbefore'⟩ :=
      maskBytes_before_mark hx (whole_iff_visits.mpr hvisits) (whole_iff_visits.mpr hvisits')
    have hcontents := maskBytes_contents h h' (map_blankByte_eq hlen hlines) rest
    exact hbefore.trans ((congrArg (before ++ ·) hcontents).trans hbefore'.symm)
  have hsame : mask? (front ++ (x :: more ++ (cs ++ (closing ++ rest)))) =
      mask? (front ++ (x :: more ++ (cs' ++ (closing ++ rest)))) := by
    rw [mask?, mask?, ← decode?_maskBytes, ← decode?_maskBytes, hbytes]
  refine ⟨hsame, fun hmask => ?_⟩
  have hmasked : mask (front ++ (x :: more ++ (cs ++ (closing ++ rest)))) =
      mask (front ++ (x :: more ++ (cs' ++ (closing ++ rest)))) := by
    obtain ⟨masked, hsome⟩ := Option.ne_none_iff_exists'.mp hmask
    rw [mask, mask, ← hsame, hsome]
    rfl
  rw [hmasked]
  exact ⟨rfl, rfl, fun _ _ => rfl, fun _ => rfl⟩

theorem scan_eq_of_quoted_brace :
    let source := "f(\"\x7b'\né\")".toList
    let source' := "f(\"ab\ncd\")".toList
    mask? source ≠ none ∧ mask? source = mask? source' ∧
      mask source = mask source' ∧ classSpans (mask source) = classSpans (mask source') ∧
      (∀ start stop, functionSpans (mask source) start stop =
        functionSpans (mask source') start stop) ∧
      ∀ classes, freeFunctions (mask source) classes = freeFunctions (mask source') classes := by
  intro source source'
  have hcode : ∀ c ∈ ['f', '('], beginsToken c = false := by decide
  have h : Encloses ['"'] ['\x7b', '\'', '\n', 'é'] ['"'] :=
    .string (.inr (.inl rfl)) (by decide) (by decide)
  have h' : Encloses ['"'] ['a', 'b', '\n', 'c', 'd'] ['"'] :=
    .string (.inr (.inl rfl)) (by decide) (by decide)
  have hlines : ∀ i : Nat, (bytes ['\x7b', '\'', '\n', 'é'])[i]? = some '\n'.toUInt8 ↔
      (bytes ['a', 'b', '\n', 'c', 'd'])[i]? = some '\n'.toUInt8 := by
    intro i
    rcases i with _ | _ | _ | _ | _ | i
    case succ => exact Iff.rfl
    all_goals decide
  have hsource : source = ['f', '('] ++
      (['"'] ++ (['\x7b', '\'', '\n', 'é'] ++ (['"'] ++ [')']))) := by
    decide
  have hsource' : source' = ['f', '('] ++
      (['"'] ++ (['a', 'b', '\n', 'c', 'd'] ++ (['"'] ++ [')']))) := by
    decide
  have hmask : mask? source ≠ none := by decide
  obtain ⟨hsame, hscan⟩ := scan_eq_of_encloses h h' hsource hsource' (by decide) hlines
    (hsource ▸ visits_of_whole (whole_of_code hcode))
      (hsource' ▸ visits_of_whole (whole_of_code hcode))
  exact ⟨hmask, hsame, hscan hmask⟩

end SignatureInference.Source.Buffer
