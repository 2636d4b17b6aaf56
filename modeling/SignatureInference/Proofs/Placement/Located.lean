import SignatureInference.Proofs.Edits
import SignatureInference.Proofs.Placement.Sites
import SignatureInference.Proofs.Placement.TypeText

/-! # The place of an instruction is a site

The place that an instruction finds in a masked source is a site, if its type is written as types
are, if no word touches the place, and if the type does not complete the head of a function.
-/
namespace SignatureInference.Placement

open Text Source

theorem Lead.plain {l : List Char} (h : Lead l) :
    ∀ c ∈ l, isBlank c = true ∨ isWordChar c = true := by
  induction h with
  | nil => simp
  | blank hc hl ih =>
    intro d hd
    rcases List.mem_cons.mp hd with rfl | hd
    · exact .inl hc
    · exact ih d hd
  | word hw hc hl ih =>
    intro d hd
    rcases List.mem_append.mp hd with hd | hd
    · exact .inr (isWordChar_of_isIdentPart (isIdentPart_of_isAlpha (isAlpha_of_isPromotion hw hd)))
    · rcases List.mem_cons.mp hd with rfl | hd
      · exact .inl hc
      · exact ih d hd

theorem Lead.silent {pattern : Option Char → List Char → Option Found} (hpattern : IsHeader pattern)
    {l : List Char} (h : Lead l) (previous : Option Char) (z : List Char) :
    Silent pattern previous l z := by
  induction h generalizing previous with
  | nil => exact silent_nil z
  | blank hc hl ih => exact silent_cons (hpattern.eq_none _ (beginsKeyword_of_isBlank hc) _) (ih _)
  | @word w c l hw hc hl ih =>
    obtain ⟨d, ds, rfl, hd⟩ := exists_cons_of_isPromotion hw
    have hchars : ∀ x ∈ d :: ds, isWordChar x = true := fun x hx =>
      isWordChar_of_isIdentPart (isIdentPart_of_isAlpha (isAlpha_of_isPromotion hw hx))
    refine Silent.append (silent_cons (hpattern.eq_none _ hd _) ?_) ?_
    · exact silent_wordChars hpattern (hchars d List.mem_cons_self)
        fun x hx => hchars x (List.mem_cons_of_mem _ hx)
    · exact silent_cons (hpattern.eq_none _ (beginsKeyword_of_isBlank hc) _) (ih _)

/-! ## Sites for results -/

theorem inert_of_isTypeLetter {t : List Char} (h : ∀ c ∈ t, isTypeLetter c = true) : Inert t := by
  intro c hc
  have := h c hc
  simp only [isTypeLetter, Bool.or_eq_true] at this
  rcases this with (h | h) | h <;> simp [isTypeChar, h]

theorem exists_result_site {masked t : List Char} {close : Nat} (hclose : HasAt masked close ')')
    (ht : isTypeText t = true)
    (hends : (trimStart (dropBytes (close + 1) masked)).head?.any endsHead = true) :
    ∃ σ : Seam, Site σ ∧ σ.before = masked ∧ σ.place = close + 1 ∧
      σ.inserted = ':' :: ' ' :: t := by
  obtain ⟨l, r, rfl, rfl⟩ := hclose
  rw [dropBytes_succ_byteLength (by decide)] at hends
  obtain ⟨e, he, hends⟩ := (Option.any_eq_true _ _).mp hends
  have hends : e = '\x7b' ∨ e = ';' := by simpa [endsHead] using hends
  obtain ⟨g, hr, hg⟩ := exists_append_trimStart r
  obtain ⟨z, hz⟩ := List.head?_eq_some_iff.mp he
  rw [hz] at hr
  have hletters := isTypeLetter_of_isTypeText ht
  have hedge : isEdge e = true := by rcases hends with rfl | rfl <;> decide
  have hreference : e ≠ '&' := by rcases hends with rfl | rfl <;> decide
  refine ⟨{
    front := l
    stop := ')'
    lead := []
    inserted := ':' :: ' ' :: t
    gap := g
    edge := e
    rest := z
    isStop_stop := rfl
    lead_plain := by simp
    gap_blank := hg
    isEdge_edge := hedge
    inert := ?_
    lead_silent := fun _ _ z => silent_nil z
    inserted_silent := fun pattern hpattern z _ => ?_ }, .result rfl rfl (by simp), ?_, ?_, rfl⟩
  · intro c hc
    rcases List.mem_cons.mp hc with rfl | hc
    · decide
    · rcases List.mem_cons.mp hc with rfl | hc
      · decide
      · exact inert_of_isTypeLetter hletters c hc
  · refine silent_cons (hpattern.eq_none _ (by decide) _)
      (silent_cons (hpattern.eq_none _ (by decide) _) ?_)
    exact silent_type hletters hg hedge (fun h => absurd h hreference) hpattern
  · simp [Seam.before, Seam.left, Seam.right, hr]
  · simp [Seam.place, Seam.left, show ')'.utf8Size = 1 by decide]

/-! ## Sites for parameters -/

theorem exists_between {masked : List Char} {paramsOpen close : Nat}
    (hopen : HasAt masked paramsOpen '(') (hclose : HasAt masked close ')')
    (hlt : paramsOpen < close) :
    ∃ l params r, masked = l ++ '(' :: (params ++ ')' :: r) ∧ byteLength l = paramsOpen ∧
      takeBytes (close - (paramsOpen + 1)) (dropBytes (paramsOpen + 1) masked) = params := by
  have hone : '('.utf8Size = 1 := by decide
  obtain ⟨l, v, rfl, rfl⟩ := hopen
  rw [List.append_cons] at hclose
  have hlen : byteLength (l ++ ['(']) = byteLength l + 1 := by simp [hone]
  obtain ⟨params, r, rfl, hparams⟩ := hclose.right (by omega)
  refine ⟨l, params, r, rfl, rfl, ?_⟩
  rw [List.append_cons]
  exact takeBytes_dropBytes hlen (by omega)

theorem exists_cons_of_beginsVariable {rest : List Char} (h : beginsVariable rest = true) :
    ∃ c z, rest = c :: z ∧ (c = '$' ∨ c = '&' ∨ c = '.') := by
  obtain ⟨v, hv, z, rfl⟩ := beginsVariable_iff.mp h
  simp only [List.mem_cons, List.not_mem_nil, or_false] at hv
  rcases hv with rfl | rfl | rfl
  · exact ⟨'$', z, rfl, .inl rfl⟩
  · exact ⟨'&', z, rfl, .inr (.inl rfl)⟩
  · exact ⟨'.', '.' :: '.' :: z, rfl, .inr (.inr rfl)⟩

theorem exists_of_variableOffset {text : List Char} {n : Nat} (h : variableOffset text = .ok n) :
    ∃ lead rest, text = lead ++ rest ∧ n = byteLength lead ∧ beginsVariable rest = true ∧
      Modifiers lead := by
  rw [variableOffset] at h
  split at h
  · cases h
  · next rest hfrom =>
    split at h
    · next hvariable =>
      cases h
      obtain ⟨lead, rfl, -, hlead⟩ := exists_lead hfrom
      exact ⟨lead, rest, rfl, by rw [byteLength_append]; omega, hvariable, hlead⟩
    · cases h

theorem exists_of_parameterOffset {start index n : Nat} {params : List Char}
    (h : parameterOffset start params index = .ok n) :
    ∃ flat lead rest, params = flat ++ (lead ++ rest) ∧ n = start + byteLength (flat ++ lead) ∧
      (flat = [] ∨ ∃ x, flat = x ++ [',']) ∧ beginsVariable rest = true ∧ Modifiers lead := by
  rw [parameterOffset_eq] at h
  split at h
  · cases h
  · next text htext =>
    obtain ⟨tail, htail, -⟩ := exists_append_of_parameterTexts htext
    cases hm : variableOffset text with
    | error r =>
      rw [hm] at h
      cases h
    | ok m =>
      rw [hm] at h
      cases h
      obtain ⟨lead, rest, rfl, rfl, hrest, hlead⟩ := exists_of_variableOffset hm
      obtain ⟨v, hv, z, rfl⟩ := beginsVariable_iff.mp hrest
      generalize (parameterTexts 0 params).take index = texts at htail ⊢
      refine ⟨texts.flatMap (· ++ [',']), lead, v ++ (z ++ tail),
        by simp [htail], ?_, ?_, ?_, hlead⟩
      · rw [byteLength_append]
        exact Nat.add_assoc _ _ _
      · rcases List.eq_nil_or_concat' texts with rfl | ⟨texts, text, rfl⟩
        · exact .inl rfl
        · exact .inr ⟨texts.flatMap (· ++ [',']) ++ text, by simp⟩
      · exact beginsVariable_iff.mpr ⟨v, hv, z ++ tail, rfl⟩

/-- The place of a parameter's type stands, apart from what leads up to it, behind a comma or the
opening parenthesis, and in front of a variable. -/
theorem exists_of_placeBetween_parameter {masked : List Char} {paramsOpen close index n : Nat}
    (hopen : HasAt masked paramsOpen '(') (hclose : HasAt masked close ')')
    (hlt : paramsOpen < close)
    (h : placeBetween masked paramsOpen close (.parameter index) = .ok n) :
    ∃ front stop lead c z, masked = front ++ stop :: lead ++ c :: z ∧
      n = byteLength (front ++ stop :: lead) ∧ (stop = '(' ∨ stop = ',') ∧
      (c = '$' ∨ c = '&' ∨ c = '.') ∧ z ≠ [] ∧ Modifiers lead := by
  obtain ⟨l, params, r, rfl, hlen, hparams⟩ := exists_between hopen hclose hlt
  rw [placeBetween, hparams] at h
  obtain ⟨flat, lead, rest, rfl, rfl, hflat, hrest, hlead⟩ := exists_of_parameterOffset h
  obtain ⟨c, z, rfl, hc⟩ := exists_cons_of_beginsVariable hrest
  have hone : '('.utf8Size = 1 := by decide
  rcases hflat with rfl | ⟨x, rfl⟩
  · refine ⟨l, '(', lead, c, z ++ ')' :: r, by simp, ?_, .inl rfl, hc, by simp, hlead⟩
    simp only [byteLength_append, byteLength_cons, byteLength_nil]
    omega
  · refine ⟨l ++ '(' :: x, ',', lead, c, z ++ ')' :: r, by simp, ?_, .inr rfl, hc, by simp, hlead⟩
    simp only [byteLength_append, byteLength_cons, byteLength_nil]
    omega

theorem exists_parameter_site {source masked t : List Char} {n : Nat}
    (hmask : mask? source = some masked) (ht : isTypeText t = true)
    (hclear : ∀ c ∈ (takeBytes n source).getLast?, isIdentPart c = false)
    (hsilent : Silent functionHeader? none (t ++ [' ']) (dropBytes n masked))
    {paramsOpen close index : Nat} (hopen : HasAt masked paramsOpen '(')
    (hclose : HasAt masked close ')') (hlt : paramsOpen < close)
    (h : placeBetween masked paramsOpen close (.parameter index) = .ok n) :
    ∃ σ : Seam, Site σ ∧ σ.before = masked ∧ σ.place = n ∧ σ.inserted = t ++ [' '] := by
  obtain ⟨front, stop, lead, c, z, rfl, rfl, hstop, hc, hz, hlead⟩ :=
    exists_of_placeBetween_parameter hopen hclose hlt h
  rw [dropBytes_byteLength] at hsilent
  have hne : c ≠ ' ' := by rcases hc with rfl | rfl | rfl <;> decide
  have hcode : isCode c = true := by rcases hc with rfl | rfl | rfl <;> decide
  have hedge : isEdge c = true := by rcases hc with rfl | rfl | rfl <;> decide
  have hisStop : isStop stop = true := by rcases hstop with rfl | rfl <;> decide
  have hopens : stop ≠ ')' := by rcases hstop with rfl | rfl <;> decide
  have hletters := isTypeLetter_of_isTypeText ht
  -- the source shows in front of the place what the masked source shows there, or it is blanked
  obtain ⟨u, w, inks, rfl, hlen, -, hlast⟩ := exists_of_maskFrom? hne hmask
  rw [← hlen, takeBytes_byteLength] at hclear
  have hlead : Lead lead := hlead.lead fun d hd => by
    rcases hlast d (by
      rw [Option.mem_def] at hd
      rw [List.getLast?_append, List.getLast?_cons, hd]
      rfl) with rfl | hd
    · decide
    · exact hclear d hd
  refine ⟨{
    front := front
    stop := stop
    lead := lead
    inserted := t ++ [' ']
    gap := []
    edge := c
    rest := z
    isStop_stop := hisStop
    lead_plain := hlead.plain
    gap_blank := by simp
    isEdge_edge := hedge
    inert := ?_
    lead_silent := fun _ hpattern z => hlead.silent hpattern _ z
    inserted_silent := fun pattern hpattern y hy => ?_ },
    .parameter ?_ hlead rfl hcode hz fun s => ?_, ?_, rfl, rfl⟩
  · intro d hd
    rcases List.mem_append.mp hd with hd | hd
    · exact inert_of_isTypeLetter hletters d hd
    · rw [List.mem_singleton.mp hd]
      decide
  · obtain ⟨y', rfl⟩ := hy
    refine Silent.append ?_ (silent_cons (hpattern.eq_none _ (by decide) _) (silent_nil _))
    have hspace : ∀ d ∈ [' '], isBlank d = true := List.all_eq_true.mp (by decide)
    refine silent_type (g := [' ']) hletters hspace hedge (fun _ => ?_) hpattern
    exact Silent.function_take (z := y') (by simpa using hsilent.left)
  · exact hopens
  · simpa using variableOffset_typeText ht s
  · simp [Seam.before, Seam.left, Seam.right]

/-! ## Slots -/

theorem exists_of_placeIn {masked : List Char} {i : Instruction} {n : Nat}
    (h : placeIn masked i = .ok (.ok n)) :
    ∃ c methods f close, theClass (classSpans masked) i.className = .ok c ∧
      methodSpans masked c = .ok methods ∧
      methods.find? (fun f => sameIgnoringAsciiCase f.name i.function) = some f ∧
      HasAt masked f.paramsOpen '(' ∧ findClosing masked f.paramsOpen = some close ∧
      placeBetween masked f.paramsOpen close i.target = .ok n := by
  unfold placeIn at h
  split at h
  · cases h
  · next c hc =>
    obtain ⟨k, hstart, hk, hstop, -⟩ := hasAt_of_mem_classSpans (mem_of_theClass hc)
    cases hm : methodSpans masked c with
    | error e =>
      rw [hm] at h
      cases h
    | ok methods =>
      rw [hm] at h
      have h : placeAmong masked i methods = .ok n := Except.ok.inj h
      unfold placeAmong at h
      split at h
      · cases h
      · next f hf =>
        split at h
        · cases h
        · next close hclose =>
          have hopen := hasAt_of_mem_functionSpansFrom hstop (.inr ⟨k, _, hstart, hk, by decide⟩) hm
            (List.mem_of_find?_eq_some hf)
          exact ⟨c, methods, f, close, hc, hm, hf, hopen, hclose, h⟩

/-- What is assumed of an instruction and of its place in a source: its type is written as types
are, no word touches the place of the type of a parameter, and behind the parenthesis in front of
the type of a result the body begins or the declaration ends. -/
def Fits (source : List Char) (i : Instruction) (n : Nat) : Prop :=
  isTypeText i.type.render.toList = true ∧
    match i.target with
    | .result => (trimStart (dropBytes n (mask source))).head?.any endsHead = true
    | .parameter _ => (takeBytes n source).getLast?.all (!isIdentPart ·) = true

instance (source : List Char) (i : Instruction) (n : Nat) : Decidable (Fits source i n) :=
  match i with
  | ⟨_, _, .result, _⟩ => inferInstanceAs (Decidable (_ ∧ _))
  | ⟨_, _, .parameter _, _⟩ => inferInstanceAs (Decidable (_ ∧ _))

/-- The type of a parameter, together with what follows its place, begins no head of a function. -/
def AddsNoHead (source : List Char) (i : Instruction) (n : Nat) : Prop :=
  i.target ≠ .result →
    Silent functionHeader? none (insertedText i).toList (dropBytes n (mask source))

instance (source : List Char) (i : Instruction) (n : Nat) : Decidable (AddsNoHead source i n) :=
  inferInstanceAs (Decidable (_ → _))

/-- A place of a source where a text can be put without any effect on the masked source
elsewhere. -/
def Slot (source : List Char) (n : Nat) (t : List Char) : Prop :=
  ∃ σ : Seam, Site σ ∧ mask? source = some σ.before ∧ σ.place = n ∧ σ.inserted = t ∧
    ∀ c ∈ (takeBytes n source).getLast?, isIdentPart c = false

theorem slot_of_placeIn {source masked : List Char} (hmask : mask? source = some masked)
    {i : Instruction} {n : Nat} (h : placeIn masked i = .ok (.ok n)) (hfits : Fits source i n)
    (hhead : AddsNoHead source i n) : Slot source n (insertedText i).toList := by
  obtain ⟨-, -, f, close, -, -, -, hopen, hclosing, hplace⟩ := exists_of_placeIn h
  obtain ⟨hclose, hlt⟩ := hasAt_of_findClosing hopen rfl hclosing
  obtain ⟨htype, hfits⟩ := hfits
  have hmasked : mask source = masked := by rw [mask, hmask]; rfl
  rw [hmasked] at hfits
  cases htarget : i.target with
  | result =>
    have htext : (insertedText i).toList = ':' :: ' ' :: i.type.render.toList := by
      simp [insertedText, htarget]
    rw [htarget] at hfits hplace
    rw [htext]
    have hn : n = close + 1 := by
      rw [placeBetween] at hplace
      split at hplace
      · cases hplace
      · exact (Except.ok.inj hplace).symm
    subst hn
    obtain ⟨σ, hσ, rfl, hn, ht⟩ := exists_result_site hclose htype hfits
    refine ⟨σ, hσ, hmask, hn, ht, ?_⟩
    obtain ⟨a, b, he, rfl⟩ := hclose
    rw [he] at hmask
    obtain ⟨u, w, -, rfl, hlen, -, -⟩ := exists_of_maskFrom? (by decide) hmask
    rw [List.append_cons, show byteLength a + 1 = byteLength (u ++ [')']) by
      simp [hlen, show ')'.utf8Size = 1 by decide], takeBytes_byteLength]
    simpa using (by decide : isIdentPart ')' = false)
  | parameter index =>
    have htext : (insertedText i).toList = i.type.render.toList ++ [' '] := by
      simp [insertedText, htarget]
    have hsilent := hhead (by rw [htarget]; simp)
    rw [htarget] at hfits hplace
    rw [hmasked, htext] at hsilent
    rw [htext]
    have hclear : ∀ c ∈ (takeBytes n source).getLast?, isIdentPart c = false := by
      simpa [Option.all_eq_true] using hfits
    obtain ⟨σ, hσ, rfl, hn, ht⟩ :=
      exists_parameter_site hmask htype hclear hsilent hopen hclose hlt hplace
    exact ⟨σ, hσ, hmask, hn, ht, hclear⟩

theorem Slot.isBoundary {source t : List Char} {n : Nat} (h : Slot source n t) :
    isBoundary source n = true := by
  obtain ⟨σ, hσ, hmask, rfl, rfl, hclear⟩ := h
  obtain ⟨x, y, rfl, hx, -⟩ := mask?_insert hσ hmask hclear
  rw [← hx]
  exact isBoundary_byteLength x y

theorem Slot.mask?_insertAt {source t : List Char} {σ : Seam} (hσ : Site σ)
    (hmask : mask? source = some σ.before) (ht : σ.inserted = t)
    (hclear : ∀ c ∈ (takeBytes σ.place source).getLast?, isIdentPart c = false) :
    mask? (insertAt σ.place t source) = some σ.after := by
  obtain ⟨x, y, rfl, hx, hafter⟩ := mask?_insert hσ hmask hclear
  rw [← hx, insertAt_byteLength, ← ht, hafter]

/-- A text in a slot moves the places of instructions and takes one of them. -/
theorem Slot.placeIn_insertAt {source t : List Char} {n : Nat} (h : Slot source n t)
    (i : Instruction) :
    placeIn (mask (insertAt n t source)) i =
      (placeIn (mask source) i).map (settle n (byteLength t) (alreadyTyped i.target)) := by
  obtain ⟨σ, hσ, hmask, rfl, rfl, hclear⟩ := h
  have hbefore : mask source = σ.before := by rw [mask, hmask]; rfl
  have hafter : mask (insertAt σ.place σ.inserted source) = σ.after := by
    rw [mask, mask?_insertAt hσ hmask rfl hclear]
    rfl
  rw [hbefore, hafter, placeIn_after hσ]

theorem getLast?_takeBytes_insertAt {source t : List Char} {m n : Nat}
    (hm : isBoundary source m = true) (hn : isBoundary source n = true) (hne : m ≠ n) :
    (takeBytes (shift n (byteLength t) m) (insertAt n t source)).getLast? =
      (takeBytes m source).getLast? := by
  obtain ⟨x, y, rfl, rfl⟩ := exists_append_of_isBoundary hn
  obtain ⟨v, w, he, rfl⟩ := exists_append_of_isBoundary hm
  rw [insertAt_byteLength]
  rcases Nat.lt_or_gt_of_ne hne with hlt | hgt
  · obtain ⟨z, rfl, rfl⟩ := exists_append_of_byteLength_le he.symm hlt.le
    rw [shift_of_lt hlt]
    simp only [List.append_assoc, takeBytes_byteLength]
  · obtain ⟨z, rfl, rfl⟩ := exists_append_of_byteLength_le he hgt.le
    have hz : z ≠ [] := by
      rintro rfl
      simp at hgt
    have hlen : byteLength (x ++ z) + byteLength t = byteLength (x ++ (t ++ z)) := by
      simp only [byteLength_append]
      omega
    have htext : x ++ (t ++ (z ++ w)) = x ++ (t ++ z) ++ w := by simp
    rw [shift_of_le hgt.le, hlen, htext, takeBytes_byteLength, ← List.append_assoc x z w,
      takeBytes_byteLength, ← List.append_assoc, List.getLast?_append_of_ne_nil _ hz,
      List.getLast?_append_of_ne_nil _ hz]

/-- A slot stays one when a text is put in another slot. -/
theorem Slot.insertAt {source t u : List Char} {m n : Nat} (hn : Slot source n t)
    (hm : Slot source m u) (hne : m ≠ n) :
    Slot (insertAt n t source) (shift n (byteLength t) m) u := by
  have hlast := getLast?_takeBytes_insertAt (t := t) hm.isBoundary hn.isBoundary hne
  obtain ⟨σ, hσ, hmask, rfl, rfl, hclear⟩ := hn
  obtain ⟨τ, hτ, hmask', rfl, rfl, hclear'⟩ := hm
  have hbefore : σ.before = τ.before := Option.some.inj (hmask.symm.trans hmask')
  obtain ⟨ρ, hρ, hafter, hplace, hinserted⟩ := exists_site hσ hτ hbefore hne
  refine ⟨ρ, hρ, ?_, hplace, hinserted, ?_⟩
  · rw [mask?_insertAt hσ hmask rfl hclear, hafter]
  · rw [hlast]
    exact hclear'

end SignatureInference.Placement
