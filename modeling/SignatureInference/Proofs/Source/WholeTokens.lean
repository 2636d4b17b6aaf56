import SignatureInference.Proofs.Source.MaskedBytes

/-! # Whole tokens

The offsets that the cursor comes to are the ends of tokens, and the offsets inside characters that
are passed over byte by byte. A source is not masked exactly if its last token is a string without
an end, whose last character has several bytes.
-/
namespace SignatureInference.Source.Buffer

open Text

/-! ## From token to token -/

/-- Masking a text comes from its first part to the rest after whole tokens. -/
inductive Whole : List Char → List Char → Prop
  | nil (rest : List Char) : Whole [] rest
  | token {t f rest : List Char} (ht : (tokenPlan (t ++ (f ++ rest))).length = t.length)
      (h : Whole f rest) : Whole (t ++ f) rest

theorem Whole.append {front t rest : List Char} (h : Whole front (t ++ rest))
    (ht : (tokenPlan (t ++ rest)).length = t.length) : Whole (front ++ t) rest := by
  generalize hall : t ++ rest = all at h
  induction h with
  | nil =>
    subst hall
    exact List.append_nil t ▸ .token (f := []) ht (.nil rest)
  | token ht' _ ih =>
    subst hall
    rw [List.append_assoc]
    exact .token (by rwa [List.append_assoc]) (ih rfl)

variable {front rest t : List Char}

theorem lt_length_bytes (front : List Char) (c : Char) (cs : List Char) :
    byteLength front < (bytes (front ++ c :: cs)).length := by
  have := byteLength_pos (List.cons_ne_nil c cs)
  rw [length_bytes, byteLength_append]
  omega

theorem region?_token {c : Char} {cs z : List Char} (hc : c.utf8Size = 1) (hcs : c :: cs = t ++ z)
    (ht : (tokenPlan (c :: cs)).length = t.length) (front : List Char) :
    ∃ region, region? (bytes (front ++ c :: cs)) (byteLength front) = some region ∧
      region.next = byteLength (front ++ t) := by
  obtain ⟨region, hregion, hfollows⟩ := region?_bytes hc (bytes front) cs
  have hnext := hfollows.next
  rw [ht, hcs, List.take_left, length_bytes, ← byteLength_append] at hnext
  rw [← bytes_append, length_bytes] at hregion
  exact ⟨region, hregion, hnext⟩

theorem region?_inside {c : Char} (hc : c.utf8Size ≠ 1) {k : Nat} (hk : k < c.utf8Size)
    (front rest : List Char) :
    region? (bytes (front ++ c :: rest)) (byteLength front + k) =
      some ⟨none, byteLength front + k + 1⟩ ∧
      byteLength front + k < (bytes (front ++ c :: rest)).length := by
  obtain ⟨b, hbyte, hb⟩ := exists_byte_of_wide hc hk (bytes front) (bytes rest)
  rw [← bytes_cons, ← bytes_append, length_bytes] at hbyte
  exact ⟨region?_wide hbyte hb, (List.getElem?_eq_some_iff.mp hbyte).1⟩

theorem visits_inside {c : Char} (hc : c.utf8Size ≠ 1)
    (h : Visits (bytes (front ++ c :: rest)) (byteLength front)) {k : Nat} (hk : k ≤ c.utf8Size) :
    Visits (bytes (front ++ c :: rest)) (byteLength front + k) := by
  induction k with
  | zero => exact h
  | succ k ih =>
    obtain ⟨hregion, hlt⟩ := region?_inside hc hk front rest
    exact (ih (Nat.le_of_succ_le hk)).next hlt hregion

/-- The cursor comes from one token to the next. -/
theorem visits_token (h : Visits (bytes (front ++ (t ++ rest))) (byteLength front))
    (ht : (tokenPlan (t ++ rest)).length = t.length) :
    Visits (bytes (front ++ (t ++ rest))) (byteLength (front ++ t)) := by
  cases hcs : t ++ rest with
  | nil => exact absurd (List.append_eq_nil_iff.mp hcs).1 (ne_nil_of_length_tokenPlan ht)
  | cons c cs =>
    rw [hcs] at h ht
    by_cases hc : c.utf8Size = 1
    · obtain ⟨region, hregion, hnext⟩ := region?_token hc hcs.symm ht front
      exact hnext ▸ h.next (lt_length_bytes front c cs) hregion
    · rw [tokenPlan_of_size_ne hc] at ht
      obtain ⟨d, rfl⟩ := List.length_eq_one_iff.mp ht.symm
      obtain ⟨rfl, -⟩ := List.cons.inj hcs
      have hall := visits_inside hc h le_rfl
      simpa using hall

theorem visits_of_whole (h : Whole front rest) :
    Visits (bytes (front ++ rest)) (byteLength front) := by
  suffices hall : ∀ before, Visits (bytes (before ++ (front ++ rest))) (byteLength before) →
      Visits (bytes (before ++ (front ++ rest))) (byteLength (before ++ front)) from hall [] .start
  induction h with
  | nil rest =>
    intro before hbefore
    rwa [List.append_nil]
  | @token t front rest ht _ ih =>
    intro before hbefore
    rw [List.append_assoc t front rest] at hbefore ⊢
    have hnext := visits_token hbefore ht
    rw [← List.append_assoc] at hnext
    have hlast := ih (before ++ t) hnext
    simpa using hlast

/-- The cursor is between tokens, or inside a character of several bytes. -/
inductive Standing (source : List Char) : Nat → Prop
  | between (front rest : List Char) (hsource : source = front ++ rest) (h : Whole front rest) :
      Standing source (byteLength front)
  | inside {front rest : List Char} {c : Char} {k : Nat} (hsource : source = front ++ c :: rest)
      (h : Whole front (c :: rest)) (hpos : 0 < k) (hk : k < c.utf8Size) :
      Standing source (byteLength front + k)

theorem standing_of_visits {source : List Char} {i : Nat} (h : Visits (bytes source) i) :
    Standing source i := by
  induction h with
  | start => exact .between [] source rfl (.nil source)
  | @next i region _ hi hregion ih =>
    cases ih with
    | between front rest hsource h =>
      subst hsource
      cases rest with
      | nil => simp at hi
      | cons c cs =>
        by_cases hc : c.utf8Size = 1
        · obtain ⟨t, z, hcs, ht, -⟩ := exists_token c cs
          obtain ⟨region', hregion', hnext⟩ := region?_token hc hcs ht front
          obtain rfl := Option.some.inj (hregion'.symm.trans hregion)
          rw [hnext]
          rw [hcs] at h ht
          exact .between _ _ (by rw [hcs, List.append_assoc]) (h.append ht)
        · have hpos := c.utf8Size_pos
          obtain ⟨hregion', -⟩ := region?_inside hc hpos front cs
          obtain rfl := Option.some.inj (hregion'.symm.trans hregion)
          exact .inside rfl h Nat.one_pos (by omega)
    | @inside front rest c k hsource h hpos hk =>
      subst hsource
      have hc : c.utf8Size ≠ 1 := by omega
      obtain ⟨hregion', -⟩ := region?_inside hc hk front rest
      obtain rfl := Option.some.inj (hregion'.symm.trans hregion)
      by_cases hlast : k + 1 < c.utf8Size
      · exact .inside rfl h k.succ_pos hlast
      · have hnext : byteLength front + k + 1 = byteLength (front ++ [c]) := by
          rw [byteLength_append, byteLength_cons, byteLength_nil]
          omega
        dsimp only
        rw [hnext]
        have hwhole : Whole (front ++ [c]) rest := h.append (t := [c]) (by
          rw [List.singleton_append, tokenPlan_of_size_ne hc]
          rfl)
        exact .between _ _ (by simp) hwhole

theorem whole_iff_visits :
    Whole front rest ↔ Visits (bytes (front ++ rest)) (byteLength front) := by
  refine ⟨visits_of_whole, fun h => ?_⟩
  generalize hi : byteLength front = i at h
  cases standing_of_visits h with
  | between front' rest' hsource h =>
    obtain ⟨rfl, rfl⟩ := append_inj_of_byteLength hsource hi
    exact h
  | @inside front' rest' c k hsource h hpos hk =>
    -- no text ends inside a character
    obtain ⟨w, rfl, hw⟩ := exists_append_of_byteLength_le hsource.symm (by omega)
    cases w with
    | nil => simp at hi; omega
    | cons d w =>
      obtain ⟨rfl, -⟩ := List.cons.inj hw
      rw [byteLength_append, byteLength_cons] at hi
      omega

/-! ## Strings that leave a part of a character -/

/-- A source ends inside a string, with a character of several bytes. -/
def EndsInString (source : List Char) : Prop :=
  ∃ front q cs d, source = front ++ q :: (cs ++ [d]) ∧
  Visits (bytes source) (byteLength front) ∧ IsQuote q ∧
    Unclosed q (cs ++ [d]) ∧ d.utf8Size ≠ 1

section

variable {q d : Char} (hq : IsQuote q)

include hq

theorem plan_quote (cs : List Char) : plan (q :: cs) = .keep :: stringPlan q cs := by
  rcases hq with rfl | rfl | rfl <;> rfl

theorem ne_backslash_of_isQuote : q ≠ '\\' := by
  rcases hq with rfl | rfl | rfl <;> decide

theorem Unclosed.keep_not_mem {cs : List Char} (h : Unclosed q cs) : .keep ∉ stringPlan q cs := by
  have hslash := ne_backslash_of_isQuote hq
  induction h with
  | nil => exact List.not_mem_nil
  | backslash => simp [stringPlan, hslash.symm]
  | @escape cs d h ih =>
    by_cases hcs : cs = []
    · subst hcs
      simp [stringPlan]
    · simpa [stringPlan_escape q d hcs] using ih
  | @other c cs hescape hquote h ih =>
    by_cases hcs : cs = []
    · subst hcs
      simp [stringPlan, hquote]
    · simpa [stringPlan_other hescape hquote hcs] using ih

theorem plan_of_unclosed {cs : List Char} (h : Unclosed q (cs ++ [d])) :
    plan (q :: (cs ++ [d])) = .keep :: (List.replicate cs.length .blank ++ [.lastByte]) := by
  have hkeep := h.keep_not_mem hq
  rw [plan_quote hq]
  generalize hall : cs ++ [d] = all at hkeep
  cases quoted (ne_backslash_of_isQuote hq) all with
  | closed body rest hplan => exact absurd (by rw [hplan]; simp) hkeep
  | empty => simp at hall
  | unclosed body e _ hplan =>
    obtain ⟨rfl, -⟩ := List.append_inj' hall rfl
    rw [hplan]

end

/-- Only a string without an end has a mark that leaves a part of a character. -/
theorem exists_of_lastByte_mem {cs : List Char} (h : .lastByte ∈ plan cs) :
    ∃ q body d, cs = q :: (body ++ [d]) ∧ IsQuote q ∧ Unclosed q (body ++ [d]) := by
  have hstring : ∀ {q : Char} {ds : List Char}, IsQuote q →
    .lastByte ∈ Ink.keep :: stringPlan q ds →
      ∃ q' body d, q :: ds = q' :: (body ++ [d]) ∧ IsQuote q' ∧ Unclosed q' (body ++ [d]) := by
    intro q ds hq h
    cases quoted (ne_backslash_of_isQuote hq) ds with
    | closed body rest hplan => simp [hplan] at h
    | empty => simp [stringPlan] at h
    | unclosed body d hopen _ => exact ⟨q, body, d, rfl, hq, hopen⟩
  unfold plan at h
  split at h
  · simp at h
  · simp at h
  · simp at h
  · simp at h
  · exact hstring (.inl rfl) h
  · exact hstring (.inr (.inl rfl)) h
  · exact hstring (.inr (.inr rfl)) h
  · next cs =>
    obtain ⟨m, n, k, _, hplan, _⟩ := heredoc?_bytes [0, 0, 0] (Nat.zero_add 3) cs
    simp [hplan] at h
  · simp at h

theorem lastByte_mem_plan {cs : List Char} (h : .lastByte ∈ tokenPlan cs) :
    .lastByte ∈ plan cs := by
  unfold tokenPlan at h
  split at h
  · simp at h
  · exact h

theorem maskFrom?_append {inks : List Ink} (h : inks.length = t.length) (z : List Char) :
    maskFrom? inks (t ++ z) = (maskFrom? inks t).bind fun shown =>
      (maskFrom? [] z).map (shown ++ ·) := by
  induction t generalizing inks with
  | nil =>
    rw [List.eq_nil_of_length_eq_zero h]
    simp [maskFrom?]
  | cons c t ih =>
    cases inks with
    | nil => cases h
    | cons ink inks =>
      rw [List.cons_append, maskFrom?_cons, maskFrom?_cons]
      simp only [nextInk, ih (Nat.succ.inj h)]
      cases ink.apply c with
      | none => rfl
      | some shown =>
        cases maskFrom? inks t with
        | none => rfl
        | some shown' =>
          cases maskFrom? [] z with
          | none => rfl
          | some rest => simp

theorem maskFrom?_tokenPlan (cs : List Char) : maskFrom? [] cs = maskFrom? (tokenPlan cs) cs := by
  cases cs with
  | nil => rfl
  | cons c cs => rw [maskFrom?_cons, maskFrom?_cons, nextInk_tokenPlan]

theorem maskFrom?_eq_none_iff {inks : List Ink} (h : inks.length = t.length) :
    maskFrom? inks t = none ↔ ∃ d, (Ink.lastByte, d) ∈ inks.zip t ∧ d.utf8Size ≠ 1 := by
  induction t generalizing inks with
  | nil => simp [maskFrom?]
  | cons c t ih =>
    cases inks with
    | nil => cases h
    | cons ink inks =>
      rw [maskFrom?_cons]
      simp only [nextInk, List.zip_cons_cons, List.mem_cons, Prod.mk.injEq]
      cases happly : ink.apply c with
      | none =>
        have hink : ink = .lastByte ∧ c.utf8Size ≠ 1 := by
          cases ink with
          | keep => cases happly
          | blank => cases happly
          | lastByte =>
            refine ⟨rfl, fun hc => ?_⟩
            rw [Ink.apply, if_pos hc] at happly
            cases happly
        exact ⟨fun _ => ⟨c, .inl ⟨hink.1.symm, rfl⟩, hink.2⟩, fun _ => rfl⟩
      | some shown =>
        rw [Option.bind_some, Option.map_eq_none_iff, ih (Nat.succ.inj h)]
        refine exists_congr fun d => and_congr_left fun hd => ⟨.inr, ?_⟩
        rintro (⟨rfl, rfl⟩ | hmem)
        · rw [Ink.apply, if_neg hd] at happly
          cases happly
        · exact hmem

theorem maskFrom?_token (ht : (tokenPlan (t ++ rest)).length = t.length) :
    maskFrom? [] (t ++ rest) =
      (maskFrom? (tokenPlan (t ++ rest)) t).bind fun shown =>
        (maskFrom? [] rest).map (shown ++ ·) := by
  rw [maskFrom?_tokenPlan, maskFrom?_append ht]

theorem maskFrom?_eq_none_of_whole (h : Whole front rest) (hrest : maskFrom? [] rest = none) :
    maskFrom? [] (front ++ rest) = none := by
  induction h with
  | nil => exact hrest
  | @token t f rest ht _ ih =>
    rw [List.append_assoc, maskFrom?_token ht, ih hrest]
    cases maskFrom? (tokenPlan (t ++ (f ++ rest))) t <;> rfl

theorem maskFrom?_unclosed {q d : Char} {cs : List Char} (hq : IsQuote q)
    (hopen : Unclosed q (cs ++ [d])) :
    maskFrom? [] (q :: (cs ++ [d])) = none ↔ d.utf8Size ≠ 1 := by
  rw [maskFrom?_tokenPlan, tokenPlan_of_cons (plan_of_unclosed hq hopen),
    maskFrom?_eq_none_iff (by simp)]
  have hzip :
      (Ink.keep :: (List.replicate cs.length .blank ++ [.lastByte])).zip (q :: (cs ++ [d])) =
      (.keep, q) :: ((List.replicate cs.length .blank).zip cs ++ [(.lastByte, d)]) := by
    rw [List.zip_cons_cons, List.zip_append (by simp)]
    rfl
  have hblank : ∀ e, (Ink.lastByte, e) ∉ (List.replicate cs.length .blank).zip cs := by
    intro e he
    have := List.eq_of_mem_replicate (List.of_mem_zip he).1
    cases this
  simp [hzip, hblank]

/-- Masking leaves no text exactly if the source ends inside a string, with a character of several
bytes. -/
theorem mask?_eq_none_iff (source : List Char) :
    mask? source = none ↔
      ∃ front q cs d, source = front ++ q :: (cs ++ [d]) ∧
      Whole front (q :: (cs ++ [d])) ∧ IsQuote q ∧
        Unclosed q (cs ++ [d]) ∧ d.utf8Size ≠ 1 := by
  unfold mask?
  constructor
  · intro hnone
    induction hn : source.length using Nat.strong_induction_on generalizing source with
    | h n ih =>
      subst hn
      cases source with
      | nil => cases hnone
      | cons c cs =>
        obtain ⟨t, z, hcs, ht, hlt⟩ := exists_token c cs
        rw [hcs] at hnone ht
        cases htoken : maskFrom? (tokenPlan (t ++ z)) t with
        | none =>
          obtain ⟨_, hmem, -⟩ := (maskFrom?_eq_none_iff ht).mp htoken
          obtain ⟨q, ds, d, hsource, hq, hopen⟩ :=
            exists_of_lastByte_mem (lastByte_mem_plan (List.of_mem_zip hmem).1)
          rw [hcs, hsource]
          rw [hsource, maskFrom?_unclosed hq hopen] at hnone
          exact ⟨[], q, ds, d, rfl, .nil _, hq, hopen, hnone⟩
        | some shown =>
          rw [maskFrom?_token ht, htoken, Option.bind_some, Option.map_eq_none_iff] at hnone
          obtain ⟨front, q, ds, d, rfl, hwhole, hstring⟩ := ih _ hlt z hnone rfl
          exact ⟨t ++ front, q, ds, d, by rw [hcs, List.append_assoc], .token ht hwhole, hstring⟩
  · rintro ⟨front, q, cs, d, rfl, hwhole, hq, hopen, hd⟩
    exact maskFrom?_eq_none_of_whole hwhole ((maskFrom?_unclosed hq hopen).mpr hd)

theorem endsInString_iff (source : List Char) : EndsInString source ↔ mask? source = none := by
  rw [mask?_eq_none_iff]
  refine exists₄_congr fun front q cs d => and_congr_right fun hsource => and_congr_left fun _ => ?_
  rw [hsource, whole_iff_visits]

/-- The buffer of a masked source is no UTF-8 exactly if the source ends inside a string, with a
character of several bytes. The source is taken as it is then. -/
theorem buffer_malformed_iff (source : List Char) :
    ∃ out, masked? (bytes source) = some out ∧ (decode? out = none ↔ EndsInString source) ∧
      mask source = (decode? out).getD source := by
  refine ⟨maskBytes [] source, masked?_bytes source, ?_, mask_eq_decode source⟩
  rw [decode?_maskBytes, endsInString_iff]
  rfl

/-- The last string of a source has no end, and so the class in a comment is not masked. -/
theorem malformed_of_open_string :
    ∃ out, masked? (bytes "<?php /* class X \x7b\x7d */ $a = 'é".toList) = some out ∧
      decode? out = none ∧
      mask "<?php /* class X \x7b\x7d */ $a = 'é".toList =
        "<?php /* class X \x7b\x7d */ $a = 'é".toList := by
  refine ⟨_, masked?_bytes _, ?_, ?_⟩
  · rw [decode?_maskBytes]
    decide
  · decide

end SignatureInference.Source.Buffer
