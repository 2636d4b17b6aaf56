import SignatureInference.Proofs.Source.Insertion
import SignatureInference.Proofs.Source.Occurrences

/-! # Where spans begin and end

The body of a class lies between two braces, and the parameters of a function open with a
parenthesis. A search for functions goes on behind a brace or a semicolon each time.
-/
namespace SignatureInference.Source

open Text

/-- Punctuation that a search for functions goes on behind. -/
def isBreak (c : Char) : Bool := c == '\x7b' || c == '\x7d' || c == ';'

theorem isBreak_cases {c : Char} (h : isBreak c = true) : c = '\x7b' ∨ c = '\x7d' ∨ c = ';' := by
  simpa [isBreak, or_assoc] using h

theorem utf8Size_of_isBreak {c : Char} (h : isBreak c = true) : c.utf8Size = 1 := by
  rcases isBreak_cases h with rfl | rfl | rfl <;> decide

/-! ## Classes -/

def classBody? (masked : List Char) (offset : Nat) : Option (Nat × Nat) :=
  (findFrom endsHead offset (dropBytes offset masked)).bind fun r =>
    if r.2 = ';' then none else (findClosing masked r.1).map fun stop => (r.1 + 1, stop)

theorem classSpan?_eq (masked : List Char) (namespaces : List Occurrence) (o : Occurrence) :
    classSpan? masked namespaces o =
      if inExpression (takeBytes o.start masked) || isClauseWord o.name then none
      else (classBody? masked o.stop).map fun b =>
        ⟨namespaceAt namespaces o.start, String.ofList o.name, b.1, b.2⟩ := by
  unfold classSpan? classBody?
  split
  · rfl
  · rw [Option.map_bind]
    refine Option.bind_congr fun r _ => ?_
    simp only [Function.comp]
    split
    · rfl
    · cases findClosing masked r.1 <;> rfl

theorem hasAt_of_classBody? {l r : List Char} {b : Nat × Nat}
    (h : classBody? (l ++ r) (byteLength l) = some b) :
    ∃ n, b.1 = n + 1 ∧ HasAt (l ++ r) n '\x7b' ∧ HasAt (l ++ r) b.2 '\x7d' ∧ n < b.2 := by
  unfold classBody? at h
  rw [dropBytes_byteLength] at h
  obtain ⟨⟨n, c⟩, hfind, h⟩ := Option.bind_eq_some_iff.mp h
  split at h
  · cases h
  · next hne =>
    obtain ⟨stop, hclose, rfl⟩ := Option.map_eq_some_iff.mp h
    obtain ⟨hat, hends⟩ := hasAt_of_findFrom hfind
    have hle := le_findFrom hfind
    have hc : c = '\x7b' := by
      have : c = '\x7b' ∨ c = ';' := by simpa [endsHead] using hends
      exact this.resolve_right hne
    subst hc
    have hn := hat.append_left l
    rw [Nat.add_sub_cancel' hle] at hn
    obtain ⟨hstop, hlt⟩ := hasAt_of_findClosing hn rfl hclose
    exact ⟨n, rfl, hn, hstop, hlt⟩

theorem hasAt_of_mem_classSpans {masked : List Char} {c : ClassSpan} (hc : c ∈ classSpans masked) :
    ∃ n, c.bodyStart = n + 1 ∧ HasAt masked n '\x7b' ∧ HasAt masked c.bodyStop '\x7d' ∧
      n < c.bodyStop := by
  obtain ⟨o, ho, hspan⟩ := List.mem_filterMap.mp hc
  obtain ⟨u, v, f, rfl, -, hf, hstop, -⟩ := IsHeader.ofClass.start_mem ho
  obtain ⟨⟨w, rfl⟩, -⟩ := IsHeader.ofClass.suffix hf
  have hstop : o.stop = byteLength (u ++ w) := by
    simp only [byteLength_append] at hstop ⊢
    omega
  rw [← List.append_assoc] at hspan ⊢
  rw [classSpan?_eq] at hspan
  split at hspan
  · cases hspan
  · obtain ⟨b, hb, rfl⟩ := Option.map_eq_some_iff.mp hspan
    rw [hstop] at hb
    exact hasAt_of_classBody? hb

/-! ## The number of steps

A search takes at most as many steps as the range has bytes, and more do not change what it
finds. -/

section

variable {masked : List Char} {stop : Nat}

theorem le_afterFunction {close : Nat} (h : close ≤ stop) :
    close ≤ afterFunction masked stop close := by
  unfold afterFunction
  split
  · next p c hf =>
    have hp := le_findFrom hf
    split
    · omega
    · split
      · next q hq =>
        obtain ⟨o, d, ho, hd⟩ := hasAt_of_findClosing_some hq
        have := (hasAt_of_findClosing ho hd hq).2
        omega
      · exact h
  · exact h

theorem functionSpansFrom_of_le {start : Nat} (h : stop ≤ start) (steps : Nat) :
    functionSpansFrom masked stop steps start = .ok [] := by
  cases steps with
  | zero => rfl
  | succ steps => rw [functionSpansFrom, if_pos h]

theorem functionSpansFrom_of_none {start : Nat}
    (h : firstOccurrence? functionHeader? none start
      (takeBytes (stop - start) (dropBytes start masked)) = none) (steps : Nat) :
    functionSpansFrom masked stop steps start = .ok [] := by
  cases steps with
  | zero => rfl
  | succ steps =>
    rw [functionSpansFrom, h]
    split <;> rfl

theorem functionSpansFrom_of_some {start : Nat} {o : Occurrence} (hlt : start < stop)
    (h : firstOccurrence? functionHeader? none start
      (takeBytes (stop - start) (dropBytes start masked)) = some o) (steps : Nat) :
    functionSpansFrom masked stop (steps + 1) start =
      match findClosing masked (o.stop - 1) with
      | none => .ok [⟨String.ofList o.name, o.stop - 1⟩]
      | some close =>
        if stop < close then .error .paramsBeyondEnd
        else
          (functionSpansFrom masked stop steps (afterFunction masked stop close)).map
            (⟨String.ofList o.name, o.stop - 1⟩ :: ·) := by
  rw [functionSpansFrom, if_neg (by omega), h]
  simp only
  cases findClosing masked (o.stop - 1) with
  | none => rfl
  | some close =>
    simp only
    split
    · rfl
    · cases functionSpansFrom masked stop steps _ <;> rfl

theorem functionSpansFrom_add {steps start : Nat} (h : stop - start ≤ steps) (k : Nat) :
    functionSpansFrom masked stop (steps + k) start =
      functionSpansFrom masked stop steps start := by
  induction steps generalizing start with
  | zero => rw [functionSpansFrom_of_le (by omega), functionSpansFrom_of_le (by omega)]
  | succ steps ih =>
    by_cases hle : stop ≤ start
    · rw [functionSpansFrom_of_le hle, functionSpansFrom_of_le hle]
    · cases ho : firstOccurrence? functionHeader? none start
          (takeBytes (stop - start) (dropBytes start masked)) with
      | none => rw [functionSpansFrom_of_none ho, functionSpansFrom_of_none ho]
      | some o =>
        rw [Nat.add_right_comm, functionSpansFrom_of_some (by omega) ho,
          functionSpansFrom_of_some (by omega) ho]
        rw [firstOccurrence?_eq_head?] at ho
        have hb := IsHeader.ofFunction.bounds (List.mem_of_mem_head? ho)
        split
        · rfl
        · next close hclose =>
          obtain ⟨c, d, hc, hd⟩ := hasAt_of_findClosing_some hclose
          have hlt := (hasAt_of_findClosing hc hd hclose).2
          split
          · rfl
          · have hafter : close ≤ afterFunction masked stop close := le_afterFunction (by omega)
            rw [ih (by omega)]

theorem functionSpansFrom_eq_functionSpans {steps start : Nat} (h : stop - start ≤ steps) :
    functionSpansFrom masked stop steps start = functionSpans masked start stop := by
  rw [functionSpans, ← Nat.sub_add_cancel h, Nat.add_comm, functionSpansFrom_add le_rfl]

/-! ## Where a search goes on -/

/-- Where a search may go on: behind a break, or past the end. -/
def IsResume (masked : List Char) (stop start : Nat) : Prop :=
  stop ≤ start ∨ ∃ n c, start = n + 1 ∧ HasAt masked n c ∧ isBreak c = true

theorem isResume_afterFunction {stop close : Nat} (hstop : isBoundary masked stop = true)
    (hclose : isBoundary masked close = true) (hle : close ≤ stop) :
    IsResume masked stop (afterFunction masked stop close) := by
  unfold afterFunction
  split
  · next p c hf =>
    obtain ⟨hat, hends⟩ := hasAt_of_findFrom hf
    have hp := HasAt.of_range hclose hstop hle hat
    rw [Nat.add_sub_cancel' (le_findFrom hf)] at hp
    split
    · next hc => exact .inr ⟨p, c, rfl, hp, by rw [hc]; decide⟩
    · next hc =>
      have hbrace : c = '\x7b' := by
        have : c = '\x7b' ∨ c = ';' := by simpa [endsHead] using hends
        exact this.resolve_right hc
      subst hbrace
      split
      · next q hq => exact .inr ⟨q, _, rfl, (hasAt_of_findClosing hp rfl hq).1, by decide⟩
      · exact .inl le_rfl
  · exact .inl le_rfl

/-- A function that is found is the first one of the range, or it is found behind the parameters of
the first one. -/
theorem mem_functionSpansFrom_cases {steps start : Nat} {spans : List FunctionSpan}
    (h : functionSpansFrom masked stop (steps + 1) start = .ok spans) {f : FunctionSpan}
    (hf : f ∈ spans) :
    start < stop ∧ ∃ o ∈ occurrencesFrom functionHeader? none start 0
        (takeBytes (stop - start) (dropBytes start masked)),
      (f = ⟨String.ofList o.name, o.stop - 1⟩ ∧
        ∀ close, findClosing masked (o.stop - 1) = some close → close ≤ stop) ∨
      ∃ close later, findClosing masked (o.stop - 1) = some close ∧ close ≤ stop ∧
        functionSpansFrom masked stop steps (afterFunction masked stop close) = .ok later ∧
        f ∈ later := by
  by_cases hle : stop ≤ start
  · rw [functionSpansFrom_of_le hle] at h
    cases h
    cases hf
  cases ho : firstOccurrence? functionHeader? none start
      (takeBytes (stop - start) (dropBytes start masked)) with
  | none =>
    rw [functionSpansFrom_of_none ho] at h
    cases h
    cases hf
  | some o =>
    rw [functionSpansFrom_of_some (by omega) ho] at h
    rw [firstOccurrence?_eq_head?] at ho
    refine ⟨by omega, o, List.mem_of_mem_head? ho, ?_⟩
    cases hclose : findClosing masked (o.stop - 1) with
    | none =>
      rw [hclose] at h
      cases h
      rw [List.mem_singleton.mp hf]
      exact .inl ⟨rfl, by simp⟩
    | some close =>
      rw [hclose] at h
      simp only at h
      split at h
      · cases h
      · next hinside =>
        cases hlater : functionSpansFrom masked stop steps (afterFunction masked stop close) with
        | error e =>
          rw [hlater] at h
          cases h
        | ok later =>
          rw [hlater] at h
          cases h
          rcases List.mem_cons.mp hf with rfl | hf
          · exact .inl ⟨rfl, by simpa using hinside⟩
          · exact .inr ⟨close, later, rfl, by omega, hlater, hf⟩

theorem hasAt_of_mem_functionSpansFrom (hstop : HasAt masked stop '\x7d') {steps start : Nat}
    (hstart : IsResume masked stop start) {spans : List FunctionSpan}
    (h : functionSpansFrom masked stop steps start = .ok spans) {f : FunctionSpan}
    (hf : f ∈ spans) :
    HasAt masked f.paramsOpen '(' := by
  induction steps generalizing start spans with
  | zero =>
    cases h
    cases hf
  | succ steps ih =>
    obtain ⟨hlt, o, ho, hfound⟩ := mem_functionSpansFrom_cases h hf
    obtain ⟨n, c, rfl, hn, hc⟩ := hstart.resolve_left (by omega)
    obtain ⟨k, hk, hparen⟩ := hasAt_of_functionHeader ho
    have hparen := HasAt.of_range (hn.isBoundary_succ (utf8Size_of_isBreak hc)) hstop.isBoundary
      (by omega) hparen
    rw [show n + 1 + k = o.stop - 1 by omega] at hparen
    rcases hfound with ⟨rfl, -⟩ | ⟨close, later, hclose, hinside, hlater, hf⟩
    · exact hparen
    · have hcut := (hasAt_of_findClosing hparen rfl hclose).1.isBoundary
      exact ih (isResume_afterFunction hstop.isBoundary hcut hinside) hlater hf

theorem bounds_of_mem_functionSpansFrom {steps start : Nat} {spans : List FunctionSpan}
    (h : functionSpansFrom masked stop steps start = .ok spans) {f : FunctionSpan}
    (hf : f ∈ spans) :
    start ≤ f.paramsOpen ∧ ∀ close, findClosing masked f.paramsOpen = some close →
      close ≤ stop := by
  induction steps generalizing start spans with
  | zero =>
    cases h
    cases hf
  | succ steps ih =>
    obtain ⟨-, o, ho, hfound⟩ := mem_functionSpansFrom_cases h hf
    have hbounds := IsHeader.ofFunction.bounds ho
    rcases hfound with ⟨rfl, hends⟩ | ⟨close, later, hclose, hinside, hlater, hf⟩
    · have hstart : start ≤ o.stop - 1 := by omega
      exact ⟨hstart, hends⟩
    · obtain ⟨c, d, hc, hd⟩ := hasAt_of_findClosing_some hclose
      have hlt : o.stop - 1 < close := (hasAt_of_findClosing hc hd hclose).2
      have hafter : close ≤ afterFunction masked stop close := le_afterFunction hinside
      obtain ⟨hstart, hends⟩ := ih hlater hf
      exact ⟨by omega, hends⟩

end

end SignatureInference.Source
