import SignatureInference.Proofs.Placement.FormalParameters

/-! # Parameters by their index

In a list of formal parameters, the text found for an index is that of the parameter with as many
parameters in front of it. The type that is put there becomes the type of this parameter, and no
other one changes.
-/
namespace SignatureInference.Placement

open Text Source

/-! ## The offset of a parameter -/

/-- The offset of the type of a parameter, or of its variable if it has no type, given the offset of
the text with all parameters. -/
def typeOffset? (start : Nat) (params : List Char) (index : Nat) : Option Nat :=
  let texts := parameterTexts 0 params
  texts[index]?.bind fun text => (fromType? text).map fun rest =>
    start + byteLength ((texts.take index).flatMap (· ++ [','])) +
      (byteLength text - byteLength rest)

/-- The type of a parameter goes to its offset if a variable begins there. -/
theorem parameterOffset_eq_typeOffset? (start : Nat) (params : List Char) (index : Nat) :
    parameterOffset start params index =
      match typeOffset? start params index with
      | none => .error .noParameter
      | some n =>
        if beginsVariable (dropBytes (n - start) params) then .ok n
        else .error .parameterHasType := by
  rw [parameterOffset_eq, typeOffset?]
  cases htext : (parameterTexts 0 params)[index]? with
  | none => rfl
  | some text =>
    simp only [Option.bind_some, variableOffset]
    cases hrest : fromType? text with
    | none => rfl
    | some rest =>
      obtain ⟨lead, rfl, -, -⟩ := exists_lead hrest
      obtain ⟨tail, htail, hcomma⟩ := exists_append_of_parameterTexts htext
      generalize hbefore : ((parameterTexts 0 params).take index).flatMap (· ++ [',']) =
        before at htail ⊢
      have hlen : byteLength (lead ++ rest) - byteLength rest = byteLength lead := by
        rw [byteLength_append, Nat.add_sub_cancel]
      have hdrop : dropBytes (start + byteLength before + byteLength lead - start) params =
          rest ++ tail := by
        have hsplit : params = (before ++ lead) ++ (rest ++ tail) := by simp [htail]
        have hoffset : start + byteLength before + byteLength lead - start =
            byteLength (before ++ lead) := by
          rw [byteLength_append]
          omega
        rw [hsplit, hoffset, dropBytes_byteLength]
      have hvariable : beginsVariable (rest ++ tail) = beginsVariable rest := by
        cases tail with
        | nil => rw [List.append_nil]
        | cons c tail => rw [hcomma c rfl, beginsVariable_stop (by decide)]
      simp only [Option.map_some, hlen, hdrop, hvariable]
      split <;> rfl

theorem fromType?_blanks {b : List Char} (hb : b.all isBlank = true) : fromType? b = none := by
  have htrim : trimStart b = [] := List.dropWhile_eq_nil_iff.mpr (List.all_eq_true.mp hb)
  rw [fromType?_eq, if_pos htrim]

namespace ParameterList

variable (l : ParameterList)

def offset? (start index : Nat) : Option Nat :=
  l.params[index]?.map fun p => start + byteLength (l.before index) + byteLength p.lead

theorem typeOffset?_text (start index : Nat) :
    typeOffset? start l.text index = l.offset? start index := by
  rw [typeOffset?, offset?, parameterTexts_text]
  cases hp : l.params[index]? with
  | some p =>
    have hslots := slots_eq hp
    obtain ⟨hlt, -⟩ := List.getElem?_eq_some_iff.mp hp
    have hlen : ((l.params.take index).map FormalParameter.text).length = index := by
      rw [List.length_map, List.length_take_of_le hlt.le]
    have hget : l.slots[index]? = some p.text := by
      rw [hslots, List.getElem?_append_right hlen.le, hlen, Nat.sub_self]
      rfl
    have htake : l.slots.take index = (l.params.take index).map FormalParameter.text := by
      rw [hslots, List.take_left' hlen]
    simp only [hget, htake, Option.bind_some, p.fromType?_text, Option.map_some, before,
      List.flatMap_map]
    rw [FormalParameter.text, byteLength_append p.lead, Nat.add_sub_cancel]
  | none =>
    have hle : l.params.length ≤ index := List.getElem?_eq_none_iff.mp hp
    have hblanks : ∀ text, l.slots[index]? = some text → fromType? text = none := by
      intro text htext
      rw [slots, List.getElem?_append_right (by simpa using hle)] at htext
      obtain ⟨b, -, rfl⟩ := List.mem_map.mp (List.mem_of_getElem? htext)
      exact fromType?_blanks b.property
    cases htext : l.slots[index]? with
    | none => rfl
    | some text => simp [hblanks text htext]

/-- The place of the type of a parameter, if there is such a parameter and it has no type. -/
def place (start index : Nat) : Except Refusal Nat :=
  match l.params[index]? with
  | none => .error .noParameter
  | some p =>
    if p.type.isNone then .ok (start + byteLength (l.before index) + byteLength p.lead)
    else .error .parameterHasType

theorem place_eq_ok {start index : Nat} {p : FormalParameter} (hp : l.params[index]? = some p)
    (htype : p.type = none) :
    l.place start index = .ok (start + byteLength (l.before index) + byteLength p.lead) := by
  simp [place, hp, htype]

theorem exists_place_eq_ok_iff {start index : Nat} :
    (∃ n, l.place start index = .ok n) ↔ ∃ p, l.params[index]? = some p ∧ p.type = none := by
  rw [place]
  cases l.params[index]? with
  | none => simp
  | some p => cases h : p.type <;> simp [h]

theorem dropBytes_text (front back : List Char) {index : Nat} {p : FormalParameter}
    (hp : l.params[index]? = some p) :
    dropBytes (byteLength front + byteLength (l.before index) + byteLength p.lead)
      (front ++ (l.text ++ back)) =
      p.declaration ++ (l.after index ++ back) := by
  have hsplit : front ++ (l.text ++ back) =
      (front ++ (l.before index ++ p.lead)) ++ (p.declaration ++ (l.after index ++ back)) := by
    simp [text_eq hp, FormalParameter.text]
  have hlen : byteLength front + byteLength (l.before index) + byteLength p.lead =
      byteLength (front ++ (l.before index ++ p.lead)) := by
    simp only [byteLength_append]
    omega
  rw [hsplit, hlen, dropBytes_byteLength]

theorem placeBetween_text (front back : List Char) (index : Nat) :
    placeBetween (front ++ '(' :: (l.text ++ ')' :: back)) (byteLength front)
        (byteLength front + 1 + byteLength l.text) (.parameter index) =
      l.place (byteLength front + 1) index := by
  have hparen : byteLength (front ++ ['(']) = byteLength front + 1 := by
    rw [byteLength_append]
    rfl
  rw [placeBetween, List.append_cons, takeBytes_dropBytes hparen rfl,
    parameterOffset_eq_typeOffset?, typeOffset?_text, offset?, place]
  cases hp : l.params[index]? with
  | none => rfl
  | some p =>
    have hdrop := l.dropBytes_text [] [] hp
    simp only [List.nil_append, List.append_nil, byteLength_nil, Nat.zero_add] at hdrop
    have hstart : byteLength front + 1 + byteLength (l.before index) + byteLength p.lead -
        (byteLength front + 1) = byteLength (l.before index) + byteLength p.lead := by
      rw [Nat.add_assoc (byteLength front + 1), Nat.add_sub_cancel_left]
    simp only [Option.map_some, hstart, hdrop, p.beginsVariable_declaration (head?_after index)]

end ParameterList

/-! ## A parameter with a type put into it -/

theorem isPromotion_append {w s : List Char} (hw : isPromotion w = true) (hs : s ≠ []) :
    isPromotion (w ++ s) = false := by
  by_contra h
  obtain ⟨p, hp, hwp⟩ := map_toLower_of_isPromotion hw
  obtain ⟨q, hq, hwq⟩ := map_toLower_of_isPromotion (by simpa using h)
  have hwords : ∀ p ∈ promotionWords, ∀ q ∈ promotionWords,
      p.toList.isPrefixOf q.toList = true → p.toList.length = q.toList.length := by decide
  have hlen := hwords p hp q hq (by
    rw [List.isPrefixOf_iff_prefix, ← hwp, ← hwq, List.map_append]
    exact List.prefix_append _ _)
  rw [← hwp, ← hwq] at hlen
  simp [hs] at hlen

theorem IsType.word_append {w t behind : List Char} (ht : IsType t behind)
    (hw : isPromotion w = true) (hglued : ∃ c ∈ t.head?, isWordPart c = true) :
    IsType (w ++ t) behind where
  nested := isNested_append (isNested_of_plain (Modifiers.isSeparator (by
    simpa using Modifiers.word hw (by simp) .nil))) ht.nested
  first := by
    obtain ⟨c, cs, rfl, -⟩ := exists_cons_of_isPromotion hw
    exact ⟨c, rfl, isBlank_of_isIdentPart
      (isIdentPart_of_isAlpha (isAlpha_of_isPromotion hw List.mem_cons_self))⟩
  not_promotion := by
    have hpart : ∀ d ∈ w, isWordPart d = true := fun d hd =>
      isWordPart_of_isIdentPart (isIdentPart_of_isAlpha (isAlpha_of_isPromotion hw hd))
    rw [List.takeWhile_append_of_pos hpart]
    refine isPromotion_append hw ?_
    obtain ⟨c, hc, hword⟩ := hglued
    obtain ⟨t', rfl⟩ := List.head?_eq_some_iff.mp hc
    simp [hword]
  not_variable := by
    obtain ⟨c, cs, rfl, -⟩ := exists_cons_of_isPromotion hw
    have halpha := isAlpha_of_isPromotion hw List.mem_cons_self
    refine beginsVariable_cons ?_ _
    intro hmem
    simp only [List.mem_cons, List.not_mem_nil, or_false] at hmem
    rcases hmem with rfl | rfl | rfl <;> exact absurd halpha (by decide)

/-- A parameter that is given a type. A word that touches the type becomes a part of it. -/
theorem FormalParameter.exists_typed (p : FormalParameter) {t : List Char}
    (ht : IsType t p.var.text) :
    ∃ p' : FormalParameter, ∃ w, p.lead = p'.lead ++ w ∧ (w = [] ∨ isPromotion w = true) ∧
      p'.type = some (w ++ t) ∧ p'.var = p.var := by
  by_cases hapart : ∀ d ∈ p.lead.getLast?, isWordPart d = true → ∀ c ∈ t.head?, isWordPart c = false
  · refine ⟨⟨p.lead, some t, p.var, p.lead_modifiers, ?_, ?_⟩, [], by simp, .inl rfl, rfl, rfl⟩
    · rintro _ ⟨⟩
      exact ht
    · rintro _ ⟨⟩
      exact hapart
  · push Not at hapart
    obtain ⟨d, hd, hword, c, hc, hglued⟩ := hapart
    have hblank : isBlank d = false := by
      by_contra hb
      rw [isWordPart_of_isBlank (by simpa using hb)] at hword
      cases hword
    obtain ⟨x, w, hlead, hw, hx, hend⟩ := p.lead_modifiers.exists_word hd hblank
    refine ⟨⟨x, some (w ++ t), p.var, hx, ?_, ?_⟩, w, hlead, .inr hw, rfl, rfl⟩
    · rintro _ ⟨⟩
      exact ht.word_append hw ⟨c, hc, by simpa using hglued⟩
    · rintro _ ⟨⟩ e he hpart
      rw [hend e he] at hpart
      cases hpart

theorem isType_of_isTypeText {t : List Char} (h : isTypeText t = true) (behind : List Char) :
    IsType (t ++ [' ']) behind := by
  have hletters := isTypeLetter_of_isTypeText h
  have hne : t ≠ [] := by
    rintro rfl
    revert h
    decide
  obtain ⟨c, cs, rfl⟩ := List.exists_cons_of_ne_nil hne
  have hletter := hletters c List.mem_cons_self
  refine ⟨?_, ⟨c, rfl, isBlank_of_isTypeLetter hletter⟩, ?_, ?_⟩
  · refine isNested_of_plain fun d hd => ?_
    rcases List.mem_append.mp hd with hd | hd
    · exact isSeparator_of_isTypeChar (inert_of_isTypeLetter hletters d hd)
    · rw [List.mem_singleton.mp hd]
      decide
  · rw [takeWhile_stop (isWordPart_of_isBlank (by decide))]
    -- a backslash or a question mark ends the word at once
    have hsign {d : Char} (hd : isWordPart d = false) (ds : List Char) :
        isPromotion ((d :: ds).takeWhile isWordPart) = false := by
      rw [List.takeWhile_cons_of_neg (by simp [hd]), not_isPromotion_nil]
    have hwords : ∀ w ∈ typeWords, isPromotion (w.toList.takeWhile isWordPart) = false := by
      decide +kernel
    unfold isTypeText isTypeName at h
    split at h
    · next heq =>
      rw [heq]
      exact hsign (by decide +kernel) _
    · split at h
      · next heq =>
        rw [heq]
        exact hsign (by decide +kernel) _
      · obtain ⟨w, hw, he⟩ := List.any_eq_true.mp h
        rw [← eq_of_beq he]
        exact hwords w hw
  · refine beginsVariable_cons ?_ _
    intro hmem
    simp only [List.mem_cons, List.not_mem_nil, or_false] at hmem
    rcases hmem with rfl | rfl | rfl <;> exact absurd hletter (by decide)

theorem ParameterList.insertAt_text {l : ParameterList} {index : Nat} {p p' : FormalParameter}
    {w t : List Char} (hp : l.params[index]? = some p) (htype : p.type = none)
    (hlead : p.lead = p'.lead ++ w) (htyped : p'.type = some (w ++ t)) (hvar : p'.var = p.var)
    (front back : List Char) :
    insertAt (byteLength front + 1 + byteLength (l.before index) + byteLength p.lead) t
        (front ++ '(' :: (l.text ++ ')' :: back)) =
      front ++ '(' :: ((l.set index p').text ++ ')' :: back) := by
  have hlen : byteLength front + 1 + byteLength (l.before index) + byteLength p.lead =
      byteLength (front ++ '(' :: (l.before index ++ p.lead)) := by
    simp only [byteLength_append, byteLength_cons, show '('.utf8Size = 1 by decide]
    omega
  have hsplit : front ++ '(' :: (l.text ++ ')' :: back) =
      (front ++ '(' :: (l.before index ++ p.lead)) ++
        (p.var.text ++ (l.after index ++ ')' :: back)) := by
    simp [text_eq hp, FormalParameter.text, FormalParameter.declaration, htype]
  rw [hsplit, hlen, insertAt_byteLength, text_set hp, FormalParameter.text,
    FormalParameter.declaration, htyped, hvar, hlead]
  simp

/-! ## The source with the type -/

theorem Variable.exists_edge (x : Variable) (s : List Char) :
    ∃ e z, x.text ++ s = e :: z ∧ isEdge e = true ∧ (e = '&' → takeName? (trimStart z) = none) := by
  have hnone {c : Char} (hblank : isBlank c = false) (hname : isNameStart c = false)
    (z : List Char) :
      takeName? (trimStart (c :: z)) = none := by
    rw [trimStart_cons_of_not_blank hblank]
    simp [takeName?, hname]
  rw [Variable.text]
  cases x.reference with
  | some b =>
    refine ⟨'&', b.val ++ (signed ['.', '.', '.'] x.variadic ++ '$' :: (x.name ++ x.rest) ++ s),
      by simp [signed], by decide, fun _ => ?_⟩
    rw [trimStart_blanks (List.all_eq_true.mp b.property)]
    cases x.variadic with
    | some b => exact hnone (by decide) (by decide) _
    | none => exact hnone (by decide) (by decide) _
  | none =>
    cases x.variadic with
    | some b => exact ⟨'.', _, rfl, by decide, fun h => absurd h (by decide)⟩
    | none => exact ⟨'$', _, rfl, by decide, fun h => absurd h (by decide)⟩

theorem Variable.silent_typeText (x : Variable) {t : List Char} (ht : isTypeText t = true)
    (s : List Char) :
    Silent functionHeader? none (t ++ [' ']) (x.text ++ s) := by
  obtain ⟨e, z, hez, he, hreference⟩ := x.exists_edge s
  have hspace : ∀ d ∈ [' '], isBlank d = true := List.all_eq_true.mp (by decide)
  rw [hez]
  refine Silent.append ?_ (silent_cons (IsHeader.ofFunction.eq_none _ (by decide) _) (silent_nil _))
  exact silent_function (isTypeLetter_of_isTypeText ht) hspace he hreference

theorem splice_insertion (cs : List Char) (n : Nat) (t : String) :
    Edit.splice cs (.insertion n t) = insertAt n t.toList cs := by
  simp [Edit.splice, Edit.insertion, insertAt]

theorem after_eq_insertAt (σ : Seam) : σ.after = insertAt σ.place σ.inserted σ.before := by
  rw [Seam.after, Seam.place, Seam.before, insertAt_byteLength]

/-- The type is shown in the masked source where it is put in the source. -/
theorem ParameterList.mask?_insertAt {source front back t : List Char} {l : ParameterList}
    {index n : Nat} {p : FormalParameter}
    (hmask : mask? source = some (front ++ '(' :: (l.text ++ ')' :: back)))
    (hp : l.params[index]? = some p) (htype : p.type = none)
    (hplace : l.place (byteLength front + 1) index = .ok n) (ht : isTypeText t = true)
    (hclear : ∀ c ∈ (takeBytes n source).getLast?, isIdentPart c = false) :
    mask? (insertAt n (t ++ [' ']) source) =
      some (insertAt n (t ++ [' ']) (front ++ '(' :: (l.text ++ ')' :: back))) := by
  have hn : byteLength (front ++ ['(']) + byteLength (l.before index) + byteLength p.lead = n := by
    rw [byteLength_append]
    exact Except.ok.inj ((l.place_eq_ok hp htype).symm.trans hplace)
  have hdrop := l.dropBytes_text (front ++ ['(']) (')' :: back) hp
  rw [hn, ← List.append_cons, FormalParameter.declaration, htype] at hdrop
  have hsilent : Silent functionHeader? none (t ++ [' '])
      (dropBytes n (front ++ '(' :: (l.text ++ ')' :: back))) := by
    rw [hdrop]
    exact p.var.silent_typeText ht _
  have hopen : HasAt (front ++ '(' :: (l.text ++ ')' :: back)) (byteLength front) '(' :=
    ⟨front, _, rfl, rfl⟩
  have hclosing := l.findClosing_text front back
  obtain ⟨hclose, hlt⟩ := hasAt_of_findClosing hopen rfl hclosing
  obtain ⟨σ, hσ, hbefore, rfl, hinserted⟩ :=
    exists_parameter_site hmask ht hclear hsilent hopen hclose hlt
    ((l.placeBetween_text front back index).trans hplace)
  rw [← hbefore] at hmask ⊢
  rw [Slot.mask?_insertAt hσ hmask hinserted hclear, after_eq_insertAt, hinserted]

def paramsOpen? (masked : List Char) (i : Instruction) : Option Nat := do
  let c ← (theClass (classSpans masked) i.className).toOption
  let methods ← (methodSpans masked c).toOption
  let f ← methods.find? fun f => sameIgnoringAsciiCase f.name i.function
  return f.paramsOpen

theorem locate_eq_editBetween {source : String} {i : Instruction} {paramsOpen close : Nat}
    (hopen : paramsOpen? (mask source.toList) i = some paramsOpen)
    (hclose : findClosing (mask source.toList) paramsOpen = some close) :
    locate source i = .ok (editBetween (mask source.toList) paramsOpen close i) := by
  unfold paramsOpen? at hopen
  unfold locate
  cases hc : theClass (classSpans (mask source.toList)) i.className with
  | error r => simp [hc, Except.toOption] at hopen
  | ok c =>
    cases hm : methodSpans (mask source.toList) c with
    | error e => simp [hc, hm, Except.toOption] at hopen
    | ok methods =>
      cases hf : methods.find? fun f => sameIgnoringAsciiCase f.name i.function with
      | none => simp [hc, hm, hf, Except.toOption] at hopen
      | some f =>
        obtain rfl : f.paramsOpen = paramsOpen := by simpa [hc, hm, hf, Except.toOption] using hopen
        simp [hc, hm, hf, hclose, bind, Except.bind, pure, Except.pure]

/-- An index finds the parameter that it counts to, at its type or else at its variable, and no
other one. A type is put in front of a parameter without one only, and is then the type of this
parameter in the same list of parameters. -/
theorem parameter_index_addresses (front back : List Char) (l : ParameterList) {i : Instruction}
    {index : Nat} (htarget : i.target = .parameter index) :
    let masked := front ++ '(' :: (l.text ++ ')' :: back)
    let start := byteLength front + 1
    let close := start + byteLength l.text
    findClosing masked (byteLength front) = some close ∧
      (l.params.length ≤ index → typeOffset? start l.text index = none) ∧
      (∀ p, l.params[index]? = some p →
        ∃ n, typeOffset? start l.text index = some n ∧
        n = start + byteLength (l.before index) + byteLength p.lead ∧
          dropBytes n masked = p.declaration ++ (l.after index ++ ')' :: back)) ∧
      ((∃ e, editBetween masked (byteLength front) close i = .ok e) ↔
        ∃ p, l.params[index]? = some p ∧ p.type = none) ∧
      (∀ source : String, mask source.toList = masked →
        paramsOpen? masked i = some (byteLength front) →
        locate source i = .ok (editBetween masked (byteLength front) close i)) ∧
      ∀ e p, editBetween masked (byteLength front) close i = .ok e → l.params[index]? = some p →
        IsType (insertedText i).toList p.var.text →
        ∃ p' : FormalParameter, ∃ w, p.lead = p'.lead ++ w ∧ (w = [] ∨ isPromotion w = true) ∧
          p'.type = some (w ++ (insertedText i).toList) ∧ p'.var = p.var ∧
          Edit.splice masked e = front ++ '(' :: ((l.set index p').text ++ ')' :: back) ∧
          ∀ source, mask? source = some masked → isTypeText i.type.render.toList = true →
            (∀ c ∈ (takeBytes e.start source).getLast?, isIdentPart c = false) →
            mask? (Edit.splice source e) =
              some (front ++ '(' :: ((l.set index p').text ++ ')' :: back)) := by
  intro masked start close
  have hedit : editBetween masked (byteLength front) close i =
      (l.place start index).map (Edit.insertion · (insertedText i)) := by
    rw [editBetween_eq, htarget]
    exact congrArg _ (l.placeBetween_text front back index)
  refine ⟨l.findClosing_text front back, fun hle => ?_, fun p hp => ?_, ?_,
    fun source hmask hopen => ?_, ?_⟩
  · rw [l.typeOffset?_text, ParameterList.offset?, List.getElem?_eq_none hle]
    rfl
  · refine ⟨_, by rw [l.typeOffset?_text, ParameterList.offset?, hp]; rfl, rfl, ?_⟩
    have hdrop := l.dropBytes_text (front ++ ['(']) (')' :: back) hp
    rwa [← List.append_cons, byteLength_append] at hdrop
  · rw [hedit, ← l.exists_place_eq_ok_iff]
    cases l.place start index <;> simp [Except.map]
  · rw [← hmask] at hopen ⊢
    exact locate_eq_editBetween hopen (by rw [hmask]; exact l.findClosing_text front back)
  · intro e p he hp ht
    rw [hedit] at he
    cases hplace : l.place start index with
    | error r =>
      rw [hplace] at he
      cases he
    | ok n =>
      rw [hplace] at he
      obtain rfl : Edit.insertion n (insertedText i) = e := Except.ok.inj he
      obtain ⟨q, hq, htype⟩ := l.exists_place_eq_ok_iff.mp ⟨n, hplace⟩
      obtain rfl : q = p := Option.some.inj (hq.symm.trans hp)
      obtain ⟨p', w, hlead, hw, htyped, hvar⟩ := q.exists_typed ht
      have hafter := ParameterList.insertAt_text hq htype hlead htyped hvar front back
      rw [← Except.ok.inj (hplace.symm.trans (l.place_eq_ok hq htype))] at hafter
      refine ⟨p', w, hlead, hw, htyped, hvar, (splice_insertion _ _ _).trans hafter, ?_⟩
      intro source hmask hrender hclear
      have hinserted : (insertedText i).toList = i.type.render.toList ++ [' '] := by
        simp [insertedText, htarget]
      rw [splice_insertion, ← hafter, hinserted]
      exact ParameterList.mask?_insertAt hmask hq htype hplace hrender hclear

/-- The second parameter behind a first one with commas in its default, in front of a comma at the
end. -/
theorem parameter_index_addresses_variadic :
    let source :=
  "<?php class A \x7b function f(private array $a = [1, [2, 3]], &...$b,) \x7b\x7d \x7d"
    let front := "<?php class A \x7b function f".toList
    let i : Instruction := ⟨⟨"A"⟩, "f", .parameter 1, ⟨"int", false⟩⟩
    ∃ l : ParameterList, ∃ back, l.params.length = 2 ∧
    mask source.toList = front ++ '(' :: (l.text ++ ')' :: back) ∧
      locate source i = .ok (.ok (.insertion 59 "int ")) ∧
      ∃ p' : FormalParameter, p'.type = some "int ".toList ∧
        mask? (Edit.splice source.toList (.insertion 59 "int ")) =
          some (front ++ '(' :: ((l.set 1 p').text ++ ')' :: back)) := by
  intro source front i
  have hword : Modifiers "private ".toList :=
    Modifiers.word (w := "private".toList) (l := [' ']) (by decide) (by decide)
      (.blank (by decide) .nil)
  let first : FormalParameter :=
    { lead := "private ".toList
      type := some ("array".toList ++ [' '])
      var := ⟨none, none, ['a'], " = [1, [2, 3]]".toList, by decide, by decide, by decide⟩
      lead_modifiers := hword
      type_isType := by
        rintro _ ⟨⟩
        exact isType_of_isTypeText (by decide) _
      lead_apart := by
        rintro _ ⟨⟩ d hd hpart
        obtain rfl : ' ' = d := by simpa using hd
        exact absurd hpart (by decide +kernel) }
  let second : FormalParameter :=
    { lead := [' ']
      type := none
      var := ⟨some ⟨[], rfl⟩, some ⟨[], rfl⟩, ['b'], [], by decide, by decide, by decide⟩
      lead_modifiers := .blank (by decide) .nil
      type_isType := by simp
      lead_apart := by simp }
  let l : ParameterList := ⟨[first, second], some ⟨[], rfl⟩, by simp⟩
  have htext : l.text = "private array $a = [1, [2, 3]], &...$b,".toList := rfl
  have hmask : mask? source.toList =
      some (front ++ '(' :: ("private array $a = [1, [2, 3]], &...$b,".toList ++ ')' ::
        " \x7b\x7d \x7d".toList)) := by
    decide +kernel
  rw [← htext] at hmask
  have hmasked : mask source.toList = front ++ '(' ::
      (l.text ++ ')' :: " \x7b\x7d \x7d".toList) := by
    rw [mask, hmask]
    rfl
  obtain ⟨-, -, -, -, hlocate, htyped⟩ :=
    parameter_index_addresses front " \x7b\x7d \x7d".toList l (rfl : i.target = .parameter 1)
  have hedit : editBetween (front ++ '(' :: (l.text ++ ')' :: " \x7b\x7d \x7d".toList))
    (byteLength front)
      (byteLength front + 1 + byteLength l.text) i = .ok (.insertion 59 "int ") := by
    rw [htext]
    decide +kernel
  have hopen : paramsOpen? (mask source.toList) i = some (byteLength front) := by decide +kernel
  have hlocated := hlocate source hmasked (hmasked ▸ hopen)
  rw [hedit] at hlocated
  have hinserted : (insertedText i).toList = "int".toList ++ [' '] := by decide
  rw [hinserted] at htyped
  obtain ⟨p', w, hlead, hw, htype, -, -, hsource⟩ :=
    htyped _ second hedit rfl (isType_of_isTypeText (by decide) _)
  have hnil : w = [] := by
    refine hw.resolve_right fun hw => ?_
    obtain ⟨c, cs, rfl, -⟩ := exists_cons_of_isPromotion hw
    have hlead : [' '] = p'.lead ++ c :: cs := hlead
    obtain rfl : c = ' ' := List.mem_singleton.mp (by rw [hlead]; simp)
    exact absurd (isAlpha_of_isPromotion hw List.mem_cons_self) (by decide)
  subst hnil
  exact ⟨l, _, rfl, hmasked, hlocated, p', htype, hsource _ hmask (by decide) (by decide +kernel)⟩

/-- A dot that touches the dots of a variadic parameter is no type: the two are read as dots and
more. -/
theorem dot_read_with_variadic :
    let source := "<?php class A \x7b function f(....$x) \x7b\x7d \x7d"
    let x : Variable := ⟨none, some ⟨[], rfl⟩, ['x'], [], by decide, by decide, by decide⟩
    mask source.toList = "<?php class A \x7b function f".toList ++
        '(' :: (['.'] ++ x.text ++ ')' :: " \x7b\x7d \x7d".toList) ∧
      isNested [] ['.'] = true ∧ isPromotion (['.'].takeWhile isWordPart) = false ∧
      beginsVariable ['.'] = false ∧
      locate source ⟨⟨"A"⟩, "f", .parameter 0, ⟨"int", false⟩⟩ =
        .ok (.ok (.insertion 27 "int ")) := by
  decide +kernel

end SignatureInference.Placement
