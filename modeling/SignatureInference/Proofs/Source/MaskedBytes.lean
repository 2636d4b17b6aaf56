import SignatureInference.Proofs.Source.BufferRegions
import SignatureInference.Proofs.Source.MaskInsertion

/-! # The masked buffer

Going from token to token, the cursor makes the bytes of the masked text, and no access fails on the
way. Where there is no masked text, the bytes are not UTF-8. So a masked text can stand in for its
source, position by position.
-/
namespace SignatureInference.Source.Buffer

open Text

/-! ## The whole buffer -/

def maskBytes (pending : List Ink) : List Char → List UInt8
  | [] => []
  | c :: cs =>
    inkBytes c (nextInk pending (c :: cs)).1 ++ maskBytes (nextInk pending (c :: cs)).2 cs

theorem maskBytes_append {inks : List Ink} {t : List Char} (h : inks.length = t.length)
    (z : List Char) :
    maskBytes inks (t ++ z) = inked inks t ++ maskBytes [] z := by
  induction t generalizing inks with
  | nil => rw [List.eq_nil_of_length_eq_zero h]; rfl
  | cons c t ih =>
    cases inks with
    | nil => cases h
    | cons ink inks =>
      rw [List.cons_append, maskBytes, nextInk, ih (Nat.succ.inj h), inked, List.append_assoc]

theorem nextInk_tokenPlan (cs : List Char) : nextInk [] cs = nextInk (tokenPlan cs) cs := by
  cases h : plan cs with
  | nil => rw [nextInk_nil, h, tokenPlan_of_nil h]; rfl
  | cons ink inks => rw [nextInk_nil, h, tokenPlan_of_cons h]; rfl

theorem tokenPlan_ne_nil (cs : List Char) : tokenPlan cs ≠ [] := by
  unfold tokenPlan
  split
  · exact List.cons_ne_nil _ _
  · assumption

theorem ne_nil_of_length_tokenPlan {cs t : List Char} (ht : (tokenPlan cs).length = t.length) :
    t ≠ [] := by
  rw [← List.length_pos_iff, ← ht]
  exact List.length_pos_iff.mpr (tokenPlan_ne_nil cs)

theorem length_inkBytes (c : Char) (ink : Ink) : (inkBytes c ink).length = c.utf8Size := by
  cases ink with
  | keep => exact String.length_utf8EncodeChar c
  | blank => exact (List.length_map ..).trans (String.length_utf8EncodeChar c)
  | lastByte =>
    have hlen := String.length_utf8EncodeChar c
    have hpos := c.utf8Size_pos
    have hne : String.utf8EncodeChar c ≠ [] := by
      rw [← List.length_pos_iff]
      omega
    rw [inkBytes, List.getLast?_eq_getLast_of_ne_nil hne, List.length_append, List.length_map,
      List.length_dropLast, hlen, Option.toList_some, List.length_singleton]
    omega

theorem length_inked (inks : List Ink) (cs : List Char) :
    (inked inks cs).length = byteLength cs := by
  fun_induction inked inks cs with
  | case1 ink inks c cs ih => rw [List.length_append, length_inkBytes, ih, byteLength_cons]
  | case2 inks cs _ => exact length_bytes cs

theorem beginsToken_of_size_ne {c : Char} (hc : c.utf8Size ≠ 1) : beginsToken c = false := by
  rw [← Bool.not_eq_true]
  intro h
  apply hc
  rcases beginsToken_cases h with rfl | rfl | (rfl | rfl | rfl) | rfl <;> rfl

theorem tokenPlan_of_size_ne {c : Char} (hc : c.utf8Size ≠ 1) (cs : List Char) :
    tokenPlan (c :: cs) = [.keep] :=
  tokenPlan_of_nil (plan_of_not_beginsToken (beginsToken_of_size_ne hc) cs)

theorem length_tokenPlan_le (c : Char) (cs : List Char) :
    (tokenPlan (c :: cs)).length ≤ (c :: cs).length := by
  by_cases hc : c.utf8Size = 1
  · obtain ⟨region, -, h⟩ := region?_bytes hc [] cs
    exact h.fits
  · rw [tokenPlan_of_size_ne hc]
    exact Nat.le_add_left ..

theorem exists_token (c : Char) (cs : List Char) :
    ∃ t z, c :: cs = t ++ z ∧ (tokenPlan (c :: cs)).length = t.length ∧
      z.length < (c :: cs).length := by
  have hlen := length_tokenPlan_le c cs
  have hpos := List.length_pos_iff.mpr (tokenPlan_ne_nil (c :: cs))
  refine ⟨(c :: cs).take (tokenPlan (c :: cs)).length, (c :: cs).drop (tokenPlan (c :: cs)).length,
    (List.take_append_drop ..).symm, ?_, ?_⟩
  · rw [List.length_take, Nat.min_eq_left hlen]
  · rw [List.length_drop]
    omega

theorem maskBytes_tokenPlan (cs : List Char) : maskBytes [] cs = maskBytes (tokenPlan cs) cs := by
  cases cs with
  | nil => rfl
  | cons c cs => rw [maskBytes, maskBytes, nextInk_tokenPlan]

theorem maskBytes_token {t z : List Char} (ht : (tokenPlan (t ++ z)).length = t.length) :
    maskBytes [] (t ++ z) = inked (tokenPlan (t ++ z)) t ++ maskBytes [] z := by
  rw [maskBytes_tokenPlan, maskBytes_append ht]

theorem run?_next {bytes buffer : List UInt8} {i : Nat} {region : Region} (hi : i < bytes.length)
    (hregion : region? bytes i = some region) {buffer' : List UInt8}
    (happly : region.apply? buffer = some buffer') (hnext : i < region.next) :
    run? bytes buffer i = run? bytes buffer' region.next := by
  rw [run?, dif_pos hi, hregion]
  dsimp only
  rw [happly]
  dsimp only
  rw [if_pos hnext]

theorem region?_wide {bytes : List UInt8} {i : Nat} {b : UInt8} (hi : bytes[i]? = some b)
    (hb : 0x80 ≤ b) :
    region? bytes i = some ⟨none, i + 1⟩ :=
  region?_plain hi (not_mem_map_of_le _ (by decide) hb)

/-- The cursor goes over a token and leaves it as its plan says. -/
theorem run?_token {front done : List UInt8} (hdone : done.length = front.length) {c : Char}
    {cs t z : List Char} (hcs : c :: cs = t ++ z) (ht : (tokenPlan (c :: cs)).length = t.length) :
    run? (front ++ bytes (c :: cs)) (done ++ bytes (c :: cs)) front.length =
      run? ((front ++ bytes t) ++ bytes z) ((done ++ inked (tokenPlan (c :: cs)) t) ++ bytes z)
        (front ++ bytes t).length := by
  have hinked : inked (tokenPlan (c :: cs)) (c :: cs) =
      inked (tokenPlan (c :: cs)) t ++ bytes z := by
    have h := inked_append ht [] z
    rwa [List.append_nil, ← hcs, inked_nil] at h
  rw [← grow_front_text fun bytes => run? bytes _, ← hcs, List.append_assoc, ← hinked]
  by_cases hc : c.utf8Size = 1
  · obtain ⟨region, hregion, hfollows⟩ := region?_bytes hc front cs
    have hnext := hfollows.next
    rw [ht, hcs, List.take_left] at hnext
    have hpos := byteLength_pos (ne_nil_of_length_tokenPlan ht)
    rw [run?_next _ hregion (hfollows.apply done hdone) (by omega), hnext]
    have := byteLength_pos (List.cons_ne_nil c cs)
    rw [List.length_append, length_bytes]
    omega
  · have hplan := tokenPlan_of_size_ne hc cs
    rw [hplan] at ht ⊢
    obtain ⟨d, rfl⟩ := List.length_eq_one_iff.mp ht.symm
    obtain rfl := (List.cons.inj hcs).1
    rw [bytes_cons]
    exact pass_wide (k := 0) hc (run? _ _)
      (fun i b hi hb => run?_next (List.getElem?_eq_some_iff.mp hi).1
        (region?_wide hi hb) rfl i.lt_succ_self)
      (Nat.zero_le _)

theorem run?_bytes (front done : List UInt8) (hdone : done.length = front.length) (cs : List Char) :
    run? (front ++ bytes cs) (done ++ bytes cs) front.length = some (done ++ maskBytes [] cs) := by
  induction hn : cs.length using Nat.strong_induction_on generalizing front done cs with
  | h n ih =>
    subst hn
    cases cs with
    | nil =>
      rw [run?, dif_neg (by simp)]
      rfl
    | cons c cs =>
      obtain ⟨t, z, hcs, ht, hlt⟩ := exists_token c cs
      have hlen : (done ++ inked (tokenPlan (c :: cs)) t).length = (front ++ bytes t).length := by
        rw [List.length_append, List.length_append, length_inked, length_bytes, hdone]
      rw [run?_token hdone hcs ht, ih _ hlt _ _ hlen _ rfl]
      rw [hcs] at ht ⊢
      rw [maskBytes_token ht, List.append_assoc]

theorem masked?_bytes (source : List Char) : masked? (bytes source) = some (maskBytes [] source) :=
  run?_bytes [] [] rfl source

/-! ## Reading the buffer -/

theorem bytes_replicate_blank (n : Nat) :
    bytes (List.replicate n ' ') = List.replicate n ' '.toUInt8 := by
  rw [bytes_ascii fun c hc => by rw [List.eq_of_mem_replicate hc]; decide, List.map_replicate]

theorem map_blankByte_eq_replicate {bs : List UInt8} (h : '\n'.toUInt8 ∉ bs) :
    bs.map blankByte = List.replicate bs.length ' '.toUInt8 := by
  rw [List.eq_replicate_iff, List.length_map]
  refine ⟨rfl, fun b hb => ?_⟩
  obtain ⟨d, hd, rfl⟩ := List.mem_map.mp hb
  rw [blankByte, if_neg]
  rintro rfl
  exact h hd

theorem lineFeed_not_mem {c : Char} (hc : c ≠ '\n') : '\n'.toUInt8 ∉ String.utf8EncodeChar c :=
  fun h => hc (eq_lineFeed_of_mem_utf8EncodeChar h)

theorem bytes_ink {ink : Ink} {c : Char} {shown : List Char} (h : ink.apply c = some shown) :
    bytes shown = inkBytes c ink := by
  cases ink with
  | keep =>
    cases h
    simp [inkBytes]
  | blank =>
    cases h
    by_cases hc : c = '\n'
    · subst hc
      rfl
    · rw [if_neg hc, inkBytes, map_blankByte_eq_replicate (lineFeed_not_mem hc),
        bytes_replicate_blank, String.length_utf8EncodeChar]
  | lastByte =>
    rw [Ink.apply] at h
    split at h
    · next hsize =>
      cases h
      rw [inkBytes, String.utf8EncodeChar_eq_singleton hsize, bytes_cons_ascii hsize]
      rfl
    · cases h

theorem decode?_inkBytes (c : Char) (ink : Ink) (rest : List UInt8) :
    decode? (inkBytes c ink ++ rest) = (ink.apply c).bind fun shown =>
      (decode? rest).map (shown ++ ·) := by
  cases h : ink.apply c with
  | some shown => rw [← bytes_ink h, decode?_bytes_append]; rfl
  | none =>
    cases ink with
    | keep => cases h
    | blank => cases h
    | lastByte =>
      have hsize : c.utf8Size ≠ 1 := by
        intro hsize
        rw [Ink.apply, if_pos hsize] at h
        cases h
      have hline : '\n'.toUInt8 ∉ (String.utf8EncodeChar c).dropLast := by
        intro hmem
        exact ne_toUInt8_of_le (le_of_mem_utf8EncodeChar hsize (List.mem_of_mem_dropLast hmem))
          (by decide) rfl
      obtain ⟨b, hb, hlow, hhigh⟩ := getLast?_utf8EncodeChar hsize
      rw [inkBytes, hb, map_blankByte_eq_replicate hline, ← bytes_replicate_blank,
        List.append_assoc, decode?_bytes_append]
      rw [Option.toList_some, List.singleton_append, decode?_cons_eq_none hlow hhigh]
      rfl

/-- The buffer is read as the masked text, if there is one. -/
theorem decode?_maskBytes (pending : List Ink) (cs : List Char) :
    decode? (maskBytes pending cs) = maskFrom? pending cs := by
  induction cs generalizing pending with
  | nil => rfl
  | cons c cs ih => rw [maskBytes, decode?_inkBytes, maskFrom?_cons, ih]

theorem bytes_of_maskFrom? {pending : List Ink} {cs masked : List Char}
    (h : maskFrom? pending cs = some masked) : bytes masked = maskBytes pending cs := by
  induction cs generalizing pending masked with
  | nil =>
    cases h
    rfl
  | cons c cs ih =>
    rw [maskFrom?_cons] at h
    obtain ⟨shown, hshown, h⟩ := Option.bind_eq_some_iff.mp h
    obtain ⟨rest, hrest, rfl⟩ := Option.map_eq_some_iff.mp h
    rw [bytes_append, bytes_ink hshown, ih hrest, maskBytes]

/-! ## Position by position -/

/-- A byte stays, or a blank stands in for it where it is not a line feed. -/
def StandsIn (b m : UInt8) : Prop := m = b ∨ m = ' '.toUInt8 ∧ b ≠ '\n'.toUInt8

theorem standsIn_refl (bs : List UInt8) : List.Forall₂ StandsIn bs bs :=
  List.forall₂_same.mpr fun _ _ => .inl rfl

theorem standsIn_blank (bs : List UInt8) : List.Forall₂ StandsIn bs (bs.map blankByte) := by
  rw [List.forall₂_map_right_iff, List.forall₂_same]
  intro b _
  unfold blankByte
  split
  · exact .inl rfl
  · next h => exact .inr ⟨rfl, h⟩

theorem standsIn_ink (c : Char) (ink : Ink) :
    List.Forall₂ StandsIn (String.utf8EncodeChar c) (inkBytes c ink) := by
  cases ink with
  | keep => exact standsIn_refl _
  | blank => exact standsIn_blank _
  | lastByte =>
    have hparts : (String.utf8EncodeChar c).dropLast ++ (String.utf8EncodeChar c).getLast?.toList =
        String.utf8EncodeChar c := by
      cases h : (String.utf8EncodeChar c).getLast? with
      | none =>
        rw [List.getLast?_eq_none_iff] at h
        rw [h]
        rfl
      | some b => exact List.dropLast_append_getLast? b h
    rw [inkBytes]
    nth_rewrite 1 [← hparts]
    exact List.rel_append (standsIn_blank _) (standsIn_refl _)

theorem standsIn_maskBytes (pending : List Ink) (cs : List Char) :
    List.Forall₂ StandsIn (bytes cs) (maskBytes pending cs) := by
  induction cs generalizing pending with
  | nil => exact .nil
  | cons c cs ih => exact List.rel_append (standsIn_ink c _) (ih _)

theorem standsIn_mask (source : List Char) :
    List.Forall₂ StandsIn (bytes source) (bytes (mask source)) := by
  unfold mask
  cases h : mask? source with
  | none => exact standsIn_refl _
  | some masked =>
    rw [Option.getD_some, bytes_of_maskFrom? h]
    exact standsIn_maskBytes [] source

theorem StandsIn.lineFeed_iff {b m : UInt8} (h : StandsIn b m) :
    m = '\n'.toUInt8 ↔ b = '\n'.toUInt8 := by
  rcases h with rfl | ⟨rfl, hb⟩
  · rfl
  · exact ⟨fun h => absurd h (by decide), fun h => absurd h hb⟩

theorem mask_eq_decode (source : List Char) :
    mask source = (decode? (maskBytes [] source)).getD source := by
  rw [decode?_maskBytes]
  rfl

theorem getElem?_standsIn {bs ms : List UInt8} (h : List.Forall₂ StandsIn bs ms) (i : Nat) :
    bs[i]? = none ∧ ms[i]? = none ∨ ∃ b m, bs[i]? = some b ∧ ms[i]? = some m ∧ StandsIn b m := by
  induction h generalizing i with
  | nil => exact .inl ⟨rfl, rfl⟩
  | @cons b m _ _ hm _ ih =>
    cases i with
    | zero => exact .inr ⟨b, m, rfl, rfl, hm⟩
    | succ i => exact ih i

/-- The masked text of a source, which the cursor makes without a failing access, can stand in for
the source position by position. -/
theorem mask_standsIn_source (source : List Char) :
    ∃ out, masked? (bytes source) = some out ∧ mask source = (decode? out).getD source ∧
      byteLength (mask source) = byteLength source ∧
      (∀ (i : Nat) (m : UInt8), (bytes (mask source))[i]? = some m →
        ∃ b, (bytes source)[i]? = some b ∧ (m = b ∨ m = ' '.toUInt8 ∧ b ≠ '\n'.toUInt8)) ∧
      (∀ i : Nat, (bytes (mask source))[i]? = some '\n'.toUInt8 ↔
        (bytes source)[i]? = some '\n'.toUInt8) ∧
      ∀ u c v, mask source = u ++ c :: v → c ≠ ' ' → isBoundary source (byteLength u) = true := by
  have hstands := standsIn_mask source
  refine ⟨maskBytes [] source, masked?_bytes source, mask_eq_decode source, ?_, ?_, ?_, ?_⟩
  · have hlen := hstands.length_eq
    rw [length_bytes, length_bytes] at hlen
    exact hlen.symm
  · intro i m hm
    rcases getElem?_standsIn hstands i with ⟨-, hnone⟩ | ⟨b, m', hb, hm', h⟩
    · rw [hnone] at hm
      cases hm
    · obtain rfl := Option.some.inj (hm'.symm.trans hm)
      exact ⟨b, hb, h⟩
  · intro i
    rcases getElem?_standsIn hstands i with ⟨hnone, hnone'⟩ | ⟨b, m, hb, hm, h⟩
    · rw [hnone, hnone']
    · rw [hb, hm, Option.some.injEq, Option.some.injEq, h.lineFeed_iff]
  · intro u c v hmask hc
    obtain ⟨a, z, hsource, hlen⟩ := exists_append_of_mask (v := [c]) (z := v) (by simp)
      (by simpa using hc) hmask
    rw [hsource, ← hlen]
    exact isBoundary_byteLength a _

end SignatureInference.Source.Buffer
