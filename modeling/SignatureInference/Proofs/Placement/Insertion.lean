import SignatureInference.Proofs.Placement.Parameters
import SignatureInference.Proofs.Source.SeamFunctions
import SignatureInference.Proofs.Source.Tokens

/-! # Placement in a source with an insertion

A site is a seam where a type goes, in front of the variable of a parameter or behind the
parenthesis that closes the parameters. After the insertion at a site, every instruction that found
its place finds it again, moved, unless it is the place of the insertion: there it finds a type.
Every instruction that was refused is refused for the same reason.
-/
namespace SignatureInference.Placement

open Text Source

inductive Site (σ : Seam) : Prop
  | parameter (hstop : σ.stop ≠ ')') (hlead : Lead σ.lead) (hgap : σ.gap = [])
      (hedge : isCode σ.edge = true) (hrest : σ.rest ≠ [])
      (htype : ∀ s, variableOffset (σ.inserted ++ s) = .error .parameterHasType)
  | result (hstop : σ.stop = ')') (hlead : σ.lead = []) (htype : [':'] <+: σ.inserted)

/-- What becomes of the place of an instruction when a text of some length is put at another place:
the place of the text itself is taken now. -/
def settle (place length : Nat) (taken : Refusal) : Except Refusal Nat → Except Refusal Nat
  | .error r => .error r
  | .ok n => if n = place then .error taken else .ok (shift place length n)

theorem settle_of_lt {place length n : Nat} (h : n < place) (taken : Refusal) :
    settle place length taken (.ok n) = .ok n := by
  rw [settle, if_neg (by omega), shift_of_lt h]

theorem settle_of_gt {place length n : Nat} (h : place < n) (taken : Refusal) :
    settle place length taken (.ok n) = .ok (n + length) := by
  rw [settle, if_neg (by omega), shift_of_le (by omega)]

/-! ## Parameters -/

/-- A character that parts parameters or changes the nesting of brackets. -/
def isSeparator (c : Char) : Bool :=
  c == ',' || c == '(' || c == ')' || c == '[' || c == ']' || c == '\x7b' || c == '\x7d'

theorem parameterTexts_plain {t : List Char} (ht : ∀ c ∈ t, isSeparator c = false) (depth : Int)
    (v : List Char) : parameterTexts depth (t ++ v) = glue t (parameterTexts depth v) := by
  induction t with
  | nil => cases h : parameterTexts depth v <;> simp [glue, h]
  | cons c t ih =>
    have hc := ht c List.mem_cons_self
    simp only [isSeparator, Bool.or_eq_false_iff, beq_eq_false_iff_ne] at hc
    have hdepth : depthAfter depth c = depth := by simp [depthAfter, hc]
    rw [List.cons_append, parameterTexts_cons (by simp [hc]), hdepth,
      ih fun d hd => ht d (List.mem_cons_of_mem _ hd), glue_glue]
    rfl

theorem isSeparator_eq_false {p : Char → Bool} {c : Char}
    (hp : [',', '(', ')', '[', ']', '\x7b', '\x7d'].all (!p ·) = true) (hc : p c = true) :
    isSeparator c = false := by
  by_contra hsep
  simp only [isSeparator, Bool.not_eq_false, Bool.or_eq_true, beq_iff_eq] at hsep
  have hmem : c ∈ [',', '(', ')', '[', ']', '\x7b', '\x7d'] := by simpa [or_assoc] using hsep
  have hnot := List.all_eq_true.mp hp c hmem
  rw [hc] at hnot
  cases hnot

theorem isSeparator_of_isTypeChar {c : Char} (h : isTypeChar c = true) : isSeparator c = false :=
  isSeparator_eq_false (by decide) h

theorem isSeparator_of_plain {c : Char} (h : isBlank c = true ∨ isWordChar c = true) :
    isSeparator c = false :=
  isSeparator_eq_false (p := fun c => isBlank c || isWordChar c) (by decide +kernel)
    (Bool.or_eq_true_iff.mpr h)

section

variable {σ : Seam}

/-- The parameters that are complete in front of a seam, and the beginning of the one with the seam
in it: what stands in front of the seam up to the stop, or more. -/
theorem exists_parameterTexts_seam {u : List Char}
    (hu : u = σ.lead ∧ σ.stop = '(' ∨ ∃ x, u = x ++ σ.stop :: σ.lead) :
    ∃ pre x depth, u = pre.flatMap (· ++ [',']) ++ x ∧
      (∀ v, parameterTexts 0 (u ++ v) = pre ++ glue x (parameterTexts depth v)) ∧
      (x = σ.lead ∧ σ.stop ≠ ')' ∨ ∃ y, x = y ++ σ.stop :: σ.lead) := by
  have hlead := fun c hc => isSeparator_of_plain (σ.lead_plain c hc)
  rcases hu with ⟨rfl, hstop⟩ | ⟨u, rfl⟩
  · exact ⟨[], σ.lead, 0, rfl, parameterTexts_plain hlead 0, .inl ⟨rfl, by rw [hstop]; decide⟩⟩
  · obtain ⟨pre, x, depth, rfl, hv⟩ := exists_parameterTexts_append 0 u
    by_cases hc : (σ.stop = ',' && depth = 0) = true
    · have hcomma : σ.stop = ',' := by simp at hc; exact hc.1
      refine ⟨pre ++ [x], σ.lead, depth, by simp [hcomma], fun v => ?_, .inl ⟨rfl, ?_⟩⟩
      · rw [List.append_assoc, hv, List.cons_append, parameterTexts, if_pos hc,
          parameterTexts_plain hlead]
        simp [glue]
      · rw [hcomma]
        decide
    · refine ⟨pre, x ++ σ.stop :: σ.lead, depthAfter depth σ.stop,
        by simp, fun v => ?_, .inr ⟨x, rfl⟩⟩
      rw [List.append_assoc, hv, List.cons_append, parameterTexts_cons (by simpa using hc),
        parameterTexts_plain hlead, glue_glue, glue_glue]
      simp

theorem isWordPart_edge : isWordPart σ.edge = false := by
  rcases isEdge_cases σ.isEdge_edge with h | h | h | h | h <;> rw [h] <;> decide +kernel

theorem variableOffset_after (hσ : Site σ) {x : List Char}
    (hx : x = σ.lead ∧ σ.stop ≠ ')' ∨ ∃ y, x = y ++ σ.stop :: σ.lead) {first : Nat}
    (hplace : first + byteLength x = σ.place) (s : List Char) :
    (variableOffset (x ++ (σ.inserted ++ (σ.gap ++ σ.edge :: s)))).map (first + ·) =
      settle σ.place (byteLength σ.inserted) .parameterHasType
        ((variableOffset (x ++ (σ.gap ++ σ.edge :: s))).map (first + ·)) := by
  rcases hx with ⟨rfl, hstop⟩ | ⟨y, rfl⟩
  · cases hσ with
    | result h => exact absurd h hstop
    | parameter _ hlead hgap _ _ htype =>
      have hafter : variableOffset (σ.lead ++ (σ.inserted ++ (σ.gap ++ σ.edge :: s))) =
          .error .parameterHasType := variableOffset_lead_error hlead (htype _)
      rw [hafter, hgap, List.nil_append,
        variableOffset_lead hlead Seam.isBlank_edge isWordPart_edge]
      split
      · simp [Except.map, settle, hplace]
      · rfl
  · obtain ⟨r, hr, hle⟩ := exists_variableOffset_stop σ.isStop_stop y
    simp only [List.append_assoc, List.cons_append, hr]
    cases r with
    | error r => rfl
    | ok n =>
      have hn := hle n rfl
      have hpos := σ.stop.utf8Size_pos
      rw [Except.map, settle_of_lt]
      simp only [byteLength_append, byteLength_cons] at hplace
      omega

theorem parameterOffset_after (hσ : Site σ) {start : Nat} {u : List Char}
    (hu : u = σ.lead ∧ σ.stop = '(' ∨ ∃ x, u = x ++ σ.stop :: σ.lead)
    (hplace : start + byteLength u = σ.place) (z : List Char) (index : Nat) :
    parameterOffset start (u ++ (σ.inserted ++ (σ.gap ++ σ.edge :: z))) index =
      settle σ.place (byteLength σ.inserted) .parameterHasType
        (parameterOffset start (u ++ (σ.gap ++ σ.edge :: z)) index) := by
  obtain ⟨pre, x, depth, rfl, hv, hx⟩ := exists_parameterTexts_seam hu
  rw [byteLength_append] at hplace
  have hinert : ∀ c ∈ σ.inserted, isSeparator c = false := fun c hc =>
    isSeparator_of_isTypeChar (σ.inert c hc)
  rw [parameterOffset_eq, parameterOffset_eq, hv, hv, parameterTexts_plain hinert, glue_glue]
  by_cases hk : index < pre.length
  · -- a parameter in front of the one with the seam
    rw [List.getElem?_append_left hk, List.getElem?_append_left hk,
      List.take_append_of_le_length hk.le, List.take_append_of_le_length hk.le,
      List.getElem?_eq_getElem hk]
    simp only
    cases hn : variableOffset pre[index] with
    | error r => rfl
    | ok n =>
      have hle := variableOffset_le hn
      have hsplit := congrArg (fun texts => byteLength (texts.flatMap (· ++ [','])))
        (List.take_append_drop index pre)
      rw [List.drop_eq_getElem_cons hk] at hsplit
      simp only [List.flatMap_append, List.flatMap_cons, byteLength_append,
        byteLength_cons] at hsplit
      rw [Except.map, settle_of_lt]
      have : ','.utf8Size = 1 := by decide
      omega
  · obtain ⟨k, rfl⟩ := Nat.exists_eq_add_of_le (Nat.le_of_not_lt hk)
    rw [List.getElem?_append_right (by omega), List.getElem?_append_right (by omega),
      List.take_append, List.take_append, List.take_of_length_le (by omega),
      Nat.add_sub_cancel_left]
    have hgap : ∀ c ∈ σ.gap, isSeparator c = false := fun c hc =>
      isSeparator_of_plain (.inl (σ.gap_blank c hc))
    have hedge : σ.edge ≠ ',' := by
      rcases isEdge_cases σ.isEdge_edge with h | h | h | h | h <;> rw [h] <;> decide
    rw [parameterTexts_plain hgap, parameterTexts_cons (by simp [hedge]), glue_glue]
    cases parameterTexts (depthAfter depth σ.edge) z with
    | nil => rfl
    | cons s texts =>
      cases k with
      | zero =>
        have := variableOffset_after hσ hx (Nat.add_assoc _ _ _ ▸ hplace) s
        simpa [glue] using this
      | succ k =>
        simp only [glue, List.getElem?_cons_succ, List.take_succ_cons, List.flatMap_append,
          List.flatMap_cons, byteLength_append]
        cases texts[k]? with
        | none => rfl
        | some text =>
          simp only
          cases variableOffset text with
          | error r => rfl
          | ok n =>
            rw [Except.map, Except.map, settle_of_gt]
            · congr 1
              omega
            · have := σ.edge.utf8Size_pos
              simp only [byteLength_cons]
              omega

/-! ## Instructions for one method -/

/-- The place of a type in a method whose parameters open and close at the given offsets. -/
def placeBetween (masked : List Char) (paramsOpen close : Nat) : Target → Except Refusal Nat
  | .result =>
    if startsWith [':'] (trimStart (dropBytes (close + 1) masked)) then .error .resultHasType
    else .ok (close + 1)
  | .parameter index =>
    parameterOffset (paramsOpen + 1)
      (takeBytes (close - (paramsOpen + 1)) (dropBytes (paramsOpen + 1) masked)) index

def insertedText (i : Instruction) : String :=
  match i.target with
  | .result => ": " ++ i.type.render
  | .parameter _ => i.type.render ++ " "

def alreadyTyped : Target → Refusal
  | .result => .resultHasType
  | .parameter _ => .parameterHasType

theorem editBetween_eq (masked : List Char) (paramsOpen close : Nat) (i : Instruction) :
    editBetween masked paramsOpen close i =
      (placeBetween masked paramsOpen close i.target).map (Edit.insertion · (insertedText i)) := by
  unfold editBetween placeBetween insertedText
  cases i.target with
  | result =>
    simp only
    split <;> rfl
  | parameter index =>
    simp only
    cases parameterOffset _ _ index <;> rfl

theorem placeBetween_result_stop {text l y z : List Char}
    (htext : text = l ++ ')' :: (y ++ σ.stop :: z)) (paramsOpen : Nat) :
    placeBetween text paramsOpen (byteLength l) .result =
      if startsWith [':'] (trimStart y) then .error .resultHasType else .ok (byteLength l + 1) := by
  have hcolon : σ.stop ∉ [':'] := by
    rcases isStop_cases σ.isStop_stop with h | h | h <;> rw [h] <;> decide
  rw [placeBetween, htext, dropBytes_succ_byteLength (by decide),
    trimStart_stop (isBlank_of_isStop σ.isStop_stop), startsWith_stop hcolon]

theorem placeBetween_result_taken (hσ : Site σ) (paramsOpen : Nat) (hstop : σ.stop = ')') :
    placeBetween σ.before paramsOpen (byteLength σ.front) .result = .ok σ.place ∧
      placeBetween σ.after paramsOpen (byteLength σ.front) .result = .error .resultHasType := by
  have hone : ')'.utf8Size = 1 := by decide
  cases hσ with
  | parameter h => exact absurd hstop h
  | result _ hlead htype =>
    obtain ⟨t, ht⟩ := htype
    have hplace : σ.place = byteLength σ.front + 1 := by
      simp [Seam.place, Seam.left, hstop, hlead, hone]
    have hafter : σ.after = σ.front ++ ')' :: (':' :: (t ++ σ.right)) := by
      simp [Seam.after, Seam.left, hstop, hlead, ← ht]
    have hbefore : σ.before = σ.front ++ ')' :: (σ.gap ++ σ.edge :: σ.rest) := by
      simp [Seam.before, Seam.left, Seam.right, hstop, hlead]
    have hedge : startsWith [':'] (σ.edge :: σ.rest) = false := by
      rcases isEdge_cases σ.isEdge_edge with h | h | h | h | h <;> rw [h] <;> rfl
    constructor
    · rw [placeBetween, hbefore, dropBytes_succ_byteLength hone, trimStart_blanks σ.gap_blank,
        trimStart_cons_of_not_blank Seam.isBlank_edge, hedge, hplace]
      rfl
    · rw [placeBetween, hafter, dropBytes_succ_byteLength hone,
        trimStart_cons_of_not_blank (by decide)]
      rfl

theorem placeBetween_result_after (hσ : Site σ) (paramsOpen : Nat) {close : Nat}
    (hclose : HasAt σ.before close ')') :
    placeBetween σ.after (σ.move paramsOpen) (σ.move close) .result =
      settle σ.place (byteLength σ.inserted) .resultHasType
        (placeBetween σ.before paramsOpen close .result) := by
  have hone : ')'.utf8Size = 1 := by decide
  have hplace : byteLength σ.front + σ.stop.utf8Size + byteLength σ.lead = σ.place := by
    simp only [Seam.place, Seam.left, byteLength_append, byteLength_cons]
    omega
  rcases Nat.lt_or_ge close σ.place with hlt | hge
  · rw [Seam.move_of_lt hlt]
    by_cases hfront : close < byteLength σ.front
    · have hat : HasAt σ.front close ')' := by
        rw [Seam.before, Seam.left, List.append_assoc] at hclose
        exact hclose.left hfront
      obtain ⟨l, y, hl, rfl⟩ := hat
      have hafter : σ.after = l ++ ')' :: (y ++ σ.stop :: (σ.lead ++ (σ.inserted ++ σ.right))) := by
        simp [Seam.after, Seam.left, hl]
      have hbefore : σ.before = l ++ ')' :: (y ++ σ.stop :: (σ.lead ++ σ.right)) := by
        simp [Seam.before, Seam.left, hl]
      rw [placeBetween_result_stop hafter, placeBetween_result_stop hbefore]
      split
      · rfl
      · rw [settle_of_lt]
        have := σ.stop.utf8Size_pos
        omega
    · -- the parenthesis is the stop, and the insertion stands right behind it
      have hstop : σ.stop = ')' := by
        by_contra hne
        exact hfront (Seam.hasAt_front hclose hlt (Ne.symm hne)
          (Seam.not_mem_lead (by decide) (by decide))).lt
      have hclose : close = byteLength σ.front := by
        cases hσ with
        | parameter h => exact absurd hstop h
        | result _ hlead _ =>
          rw [hstop, hlead, hone, byteLength_nil] at hplace
          omega
      obtain ⟨hbefore, -⟩ := placeBetween_result_taken hσ paramsOpen hstop
      obtain ⟨-, hafter⟩ := placeBetween_result_taken hσ (σ.move paramsOpen) hstop
      rw [hclose, hbefore, hafter, settle, if_pos rfl]
  · obtain ⟨x, r, hx, hclose⟩ := hclose.right hge
    have hclose : close = byteLength (σ.left ++ x) := by
      rw [byteLength_append]
      unfold Seam.place at hge
      omega
    have hafter : σ.after = (σ.left ++ (σ.inserted ++ x)) ++ ')' :: r := by
      simp [Seam.after, hx]
    have hbefore : σ.before = (σ.left ++ x) ++ ')' :: r := by simp [Seam.before, hx]
    have hmove : σ.move close = byteLength (σ.left ++ (σ.inserted ++ x)) := by
      rw [Seam.move_of_le hge, hclose]
      simp only [byteLength_append]
      omega
    rw [hmove, hafter, hclose, hbefore, placeBetween, placeBetween,
      dropBytes_succ_byteLength hone, dropBytes_succ_byteLength hone]
    split
    · rfl
    · rw [settle_of_gt (by omega), ← hmove, Seam.move_of_le hge, ← hclose]
      congr 1
      omega

theorem exists_stop_of_left {l u : List Char} (h : σ.left = l ++ '(' :: u) :
    u = σ.lead ∧ σ.stop = '(' ∨ ∃ x, u = x ++ σ.stop :: σ.lead := by
  rcases List.append_eq_append_iff.mp h with ⟨w, -, hw⟩ | ⟨w, -, hw⟩
  · cases w with
    | nil => exact .inl ⟨(List.cons.inj hw).2.symm, (List.cons.inj hw).1⟩
    | cons d w =>
      have hmem : '(' ∈ σ.lead := by rw [(List.cons.inj hw).2]; simp
      exact absurd hmem (Seam.not_mem_lead (by decide) (by decide))
  · cases w with
    | nil => exact .inl ⟨(List.cons.inj hw).2, (List.cons.inj hw).1.symm⟩
    | cons d w => exact .inr ⟨w, (List.cons.inj hw).2⟩

theorem placeBetween_parameter_after (hσ : Site σ) {paramsOpen close : Nat}
    (hopen : HasAt σ.before paramsOpen '(') (hclose : HasAt σ.before close ')')
    (hlt : paramsOpen < close) (index : Nat) :
    placeBetween σ.after (σ.move paramsOpen) (σ.move close) (.parameter index) =
      settle σ.place (byteLength σ.inserted) .parameterHasType
        (placeBetween σ.before paramsOpen close (.parameter index)) := by
  have hone : '('.utf8Size = 1 := by decide
  have hrange := Seam.between hopen.isBoundary hclose.isBoundary hlt.le
    (Seam.ne_place hclose (by decide) (by decide))
  have hopen' : HasAt σ.after (σ.move paramsOpen) '(' := hopen.insert σ.inserted
  rw [hopen.range_eq_cons hone hlt, hopen'.range_eq_cons hone (Seam.move_lt_move.mpr hlt)] at hrange
  simp only [placeBetween]
  generalize takeBytes (close - (paramsOpen + 1)) (dropBytes (paramsOpen + 1) σ.before) = params
    at hrange ⊢
  generalize takeBytes (σ.move close - (σ.move paramsOpen + 1))
    (dropBytes (σ.move paramsOpen + 1) σ.after) = params' at hrange ⊢
  generalize hw : '(' :: params = w at hrange
  generalize hw' : '(' :: params' = w' at hrange
  cases hrange with
  | inFront hfront hlen =>
    obtain rfl := (List.cons.inj (hw.trans hw'.symm)).2
    rw [Seam.move_of_lt (by omega)]
    cases hn : parameterOffset (paramsOpen + 1) params index with
    | error r => rfl
    | ok n =>
      have hle := (parameterOffset_bounds hn).2
      rw [← hw, byteLength_cons, hone] at hlen
      rw [settle_of_lt (by omega)]
  | behind hbehind hlen =>
    obtain rfl := (List.cons.inj (hw.trans hw'.symm)).2
    rw [Seam.move_of_le hbehind, Nat.add_right_comm, parameterOffset_add]
    cases hn : parameterOffset (paramsOpen + 1) params index with
    | error r => rfl
    | ok n =>
      have hge := (parameterOffset_bounds hn).1
      rw [settle_of_gt (by omega)]
      rfl
  | @across u v l hl hlm hplace hv hnv =>
    obtain ⟨z, rfl, -⟩ := Seam.exists_edge_of_hasAt hv hnv hclose (by decide) (by decide)
    cases u with
    | nil =>
      rw [Seam.place, hl, List.append_nil] at hplace
      omega
    | cons c u =>
      obtain ⟨rfl, rfl⟩ := List.cons.inj hw
      obtain ⟨-, rfl⟩ := List.cons.inj hw'
      rw [Seam.move_of_lt hplace]
      refine parameterOffset_after hσ (exists_stop_of_left hl) ?_ z index
      rw [Seam.place, hl, byteLength_append, byteLength_cons, hone, hlm]
      omega

theorem placeBetween_after (hσ : Site σ) {paramsOpen close : Nat}
    (hopen : HasAt σ.before paramsOpen '(') (hclose : findClosing σ.before paramsOpen = some close)
    (target : Target) :
    placeBetween σ.after (σ.move paramsOpen) (σ.move close) target =
      settle σ.place (byteLength σ.inserted) (alreadyTyped target)
        (placeBetween σ.before paramsOpen close target) := by
  obtain ⟨hat, hlt⟩ := hasAt_of_findClosing hopen rfl hclose
  cases target with
  | result => exact placeBetween_result_after hσ paramsOpen hat
  | parameter index => exact placeBetween_parameter_after hσ hopen hat hlt index

/-! ## Instructions for one source -/

theorem theClass_map (classes : List ClassSpan) (name : ClassName) :
    theClass (classes.map σ.moveClass) name = (theClass classes name).map σ.moveClass := by
  unfold theClass
  rw [List.filter_map]
  have hp : ((fun c : ClassSpan => sameIgnoringAsciiCase c.namespaceName name.namespaceName &&
      sameIgnoringAsciiCase c.name name.shortName) ∘ σ.moveClass) =
      fun c => sameIgnoringAsciiCase c.namespaceName name.namespaceName &&
        sameIgnoringAsciiCase c.name name.shortName := rfl
  rw [hp]
  match classes.filter _ with
  | [] => rfl
  | [c] => rfl
  | c :: d :: cs => rfl

theorem mem_of_theClass {classes : List ClassSpan} {name : ClassName} {c : ClassSpan}
    (h : theClass classes name = .ok c) : c ∈ classes := by
  unfold theClass at h
  split at h
  · next d hd =>
    cases h
    exact List.mem_of_mem_filter (hd ▸ List.mem_singleton_self c)
  · cases h
  · cases h

def placeAmong (masked : List Char) (i : Instruction) (methods : List FunctionSpan) :
    Except Refusal Nat :=
  match methods.find? fun f => sameIgnoringAsciiCase f.name i.function with
  | none => .error .noMethod
  | some f =>
    match findClosing masked f.paramsOpen with
    | none => .error .openParameters
    | some close => placeBetween masked f.paramsOpen close i.target

def placeIn (masked : List Char) (i : Instruction) : Except ScanError (Except Refusal Nat) :=
  match theClass (classSpans masked) i.className with
  | .error r => .ok (.error r)
  | .ok c => (methodSpans masked c).map (placeAmong masked i)

theorem locate_eq (source : String) (i : Instruction) :
    locate source i =
      (placeIn (mask source.toList) i).map (Except.map (Edit.insertion · (insertedText i))) := by
  unfold locate placeIn
  simp only
  cases theClass (classSpans (mask source.toList)) i.className with
  | error r => rfl
  | ok c =>
    simp only
    cases methodSpans (mask source.toList) c with
    | error e => rfl
    | ok methods =>
      simp only [Except.map, placeAmong, bind, Except.bind]
      cases methods.find? _ with
      | none => rfl
      | some f =>
        simp only
        cases findClosing (mask source.toList) f.paramsOpen with
        | none => rfl
        | some close => simp only [editBetween_eq]; rfl

theorem placeAmong_after (hσ : Site σ) (i : Instruction) {methods : List FunctionSpan}
    (hmethods : ∀ f ∈ methods, HasAt σ.before f.paramsOpen '(') :
    placeAmong σ.after i (methods.map σ.moveFunction) =
      settle σ.place (byteLength σ.inserted) (alreadyTyped i.target)
        (placeAmong σ.before i methods) := by
  unfold placeAmong
  rw [List.find?_map]
  have hp : ((fun f : FunctionSpan => sameIgnoringAsciiCase f.name i.function) ∘ σ.moveFunction) =
      fun f => sameIgnoringAsciiCase f.name i.function := rfl
  rw [hp]
  cases hf : methods.find? fun f => sameIgnoringAsciiCase f.name i.function with
  | none => rfl
  | some f =>
    have hopen := hmethods f (List.mem_of_find?_eq_some hf)
    have hmove : findClosing σ.after (σ.move f.paramsOpen) =
        (findClosing σ.before f.paramsOpen).map σ.move := findClosing_insert σ.inert hopen rfl
    simp only [Option.map_some, Seam.moveFunction, hmove]
    cases hclose : findClosing σ.before f.paramsOpen with
    | none => rfl
    | some close => exact placeBetween_after hσ hopen hclose i.target

/-- An insertion at a site moves the places of instructions and takes one of them. -/
theorem placeIn_after (hσ : Site σ) (i : Instruction) :
    placeIn σ.after i =
      (placeIn σ.before i).map
        (settle σ.place (byteLength σ.inserted) (alreadyTyped i.target)) := by
  unfold placeIn
  rw [Seam.classSpans_after, theClass_map]
  cases hc : theClass (classSpans σ.before) i.className with
  | error r => rfl
  | ok c =>
    obtain ⟨n, hstart, hn, hstop, -⟩ := hasAt_of_mem_classSpans (mem_of_theClass hc)
    simp only [Except.map]
    rw [Seam.methodSpans_after hstart hn (by decide) hstop]
    cases hm : methodSpans σ.before c with
    | error e => rfl
    | ok methods =>
      have hmethods : ∀ f ∈ methods, HasAt σ.before f.paramsOpen '(' := fun f hf =>
        hasAt_of_mem_functionSpansFrom hstop (.inr ⟨n, _, hstart, hn, by decide⟩) hm hf
      simp only [Except.map, placeAmong_after hσ i hmethods]

end

end SignatureInference.Placement
