import SignatureInference.Proofs.Source.FunctionHeads

/-! # What a search for functions reports

A search for functions goes from head to head. From each head it goes on behind the end of that
function, so that it reports the heads that stand in no other function, and all of these. It fails
only where the parameters of a function that it comes to are closed behind the end of the range.
-/
namespace SignatureInference.Source

open Text

/-! ## Heads by their offsets -/

/-- A head in a range begins at the offset `s`, and its function is `f`. -/
def Declares (masked : List Char) (start stop s : Nat) (f : FunctionSpan) : Prop :=
  ∃ front head rest, HeadIn masked start stop front head rest ∧ byteLength front = s ∧
  head.span front = f

def First (masked : List Char) (start stop s : Nat) (f : FunctionSpan) : Prop :=
  Declares masked start stop s f ∧ ∀ s' g, Declares masked start stop s' g → s ≤ s'

theorem FunctionHead.header?_text (head : FunctionHead) {previous : Option Char}
    (h : wordMayBegin previous = true) (rest : List Char) :
    functionHeader? previous (head.text ++ '(' :: rest) = some ⟨head.name, rest⟩ :=
  functionHeader?_eq_some_iff.mpr ⟨h, head, rfl, rfl⟩

theorem FunctionHead.not_mem_text (head : FunctionHead) {c : Char} (hc : c ∈ head.text) :
    c ≠ '(' ∧ isBreak c = false := by
  have hcases : ∀ d : Char, d = '(' ∨ isBreak d = true →
      foldLetter d ∉ "function".toList ∧ isBlank d = false ∧ d ≠ '&' ∧ isNamePart d = false := by
    rintro d (rfl | hd)
    · decide
    · rcases isBreak_cases hd with rfl | rfl | rfl <;> decide
  by_contra hnot
  obtain ⟨hletter, hblank, hamp, hpart⟩ := hcases c (by
    by_contra h
    rw [not_or, Bool.not_eq_true] at h
    exact hnot h)
  simp only [FunctionHead.text, List.mem_append] at hc
  rcases hc with hc | hc | hc | hc
  · rw [← head.keyword_eq] at hletter
    exact hletter (List.mem_map_of_mem hc)
  · obtain ⟨a, amp, b, hgap, hampersand, ha, hb⟩ := head.gap_ok
    rw [hgap] at hc
    simp only [List.mem_append] at hc
    rcases hc with hc | hc | hc
    · exact absurd (ha c hc) (by simp [hblank])
    · rcases hampersand with rfl | rfl
      · cases hc
      · exact hamp (List.mem_singleton.mp hc)
    · exact absurd (hb c hc) (by simp [hblank])
  · exact absurd (head.name_part c hc) (by simp [hpart])
  · exact absurd (head.blanks_ok c hc) (by simp [hblank])

section

variable {masked : List Char} {start stop s : Nat} {f g : FunctionSpan}

namespace Declares

theorem bounds (h : Declares masked start stop s f) :
    start ≤ s ∧ s ≤ f.paramsOpen ∧ f.paramsOpen < stop := by
  obtain ⟨front, head, rest, hhead, rfl, rfl⟩ := h
  have hle : byteLength front ≤ byteLength (front ++ head.text) := by
    rw [byteLength_append]
    omega
  exact ⟨hhead.start_le, hle, hhead.lt_stop⟩

theorem hasAt (h : Declares masked start stop s f) : HasAt masked f.paramsOpen '(' := by
  obtain ⟨front, head, rest, hhead, -, rfl⟩ := h
  exact hasAt_of_headIn hhead

theorem not_between (h : Declares masked start stop s f) {n : Nat} {c : Char}
    (hat : HasAt masked n c) (hle : s ≤ n) (hlt : n < f.paramsOpen) :
    c ≠ '(' ∧ isBreak c = false := by
  obtain ⟨front, head, rest, hhead, rfl, rfl⟩ := h
  rw [hhead.eq] at hat
  have hlt : n - byteLength front < byteLength head.text := by
    have : n < byteLength (front ++ head.text) := hlt
    rw [byteLength_append] at this
    omega
  exact head.not_mem_text ((hat.right hle).left hlt).mem

theorem unique (hf : Declares masked start stop s f)
    (hg : Declares masked start stop s g) : f = g := by
  obtain ⟨front, head, rest, hhead, hs, rfl⟩ := hf
  obtain ⟨front', head', rest', hhead', hs', rfl⟩ := hg
  obtain ⟨rfl, htext⟩ := append_inj_of_byteLength (hhead.eq.symm.trans hhead'.eq)
    (hs.trans hs'.symm)
  have hfound : functionHeader? none (head.text ++ '(' :: rest) = some ⟨head.name, rest⟩ :=
    head.header?_text rfl rest
  rw [htext, head'.header?_text rfl] at hfound
  obtain ⟨hname, hrest⟩ : head'.name = head.name ∧ rest' = rest := by simpa using hfound
  have hlen := congrArg byteLength htext
  rw [hrest, byteLength_append, byteLength_append] at hlen
  simp only [FunctionHead.span, hname, byteLength_append, FunctionSpan.mk.injEq, true_and]
  omega

theorem later (h : Declares masked start stop s f) {e : Nat} (hstart : start ≤ e) (he : e ≤ s) :
    Declares masked e stop s f := by
  obtain ⟨front, head, rest, hhead, rfl, rfl⟩ := h
  refine ⟨front, head, rest, ⟨hhead.eq, he, hhead.lt_stop, ?_⟩, rfl, rfl⟩
  rcases hhead.begins with hbegins | hbegins
  · exact .inl (by omega)
  · exact .inr hbegins

theorem earlier {e : Nat} (h : Declares masked e stop s f) (hle : start ≤ e)
    (hresume : IsResume masked stop e) : Declares masked start stop s f := by
  obtain ⟨front, head, rest, hhead, rfl, rfl⟩ := h
  exact ⟨front, head, rest, hhead.of_resume hle (.inr hresume), rfl, rfl⟩

theorem le_of_resume (h : Declares masked start stop s f) {e : Nat}
    (hresume : IsResume masked stop e) (he : e ≤ f.paramsOpen) : e ≤ s := by
  obtain ⟨n, c, rfl, hat, hc⟩ := hresume.resolve_left (by have := h.bounds; omega)
  by_contra hlt
  have := (h.not_between hat (by omega) (by omega)).2
  rw [hc] at this
  cases this

theorem eq_or_lt {s' : Nat} (hf : Declares masked start stop s f)
    (hg : Declares masked start stop s' g) (hle : s ≤ s') :
    g.paramsOpen = f.paramsOpen ∨ f.paramsOpen < s' := by
  by_contra hnot
  rw [not_or, Nat.not_lt] at hnot
  have := hg.bounds
  rcases Nat.lt_or_gt_of_ne hnot.1 with hlt | hlt
  · exact (hf.not_between hg.hasAt (by omega) hlt).1 rfl
  · exact (hg.not_between hf.hasAt hnot.2 hlt).1 rfl

end Declares

theorem First.unique {s' : Nat} (hf : First masked start stop s f)
    (hg : First masked start stop s' g) :
    f = g := by
  have hs : s = s' := Nat.le_antisymm (hf.2 _ _ hg.1) (hg.2 _ _ hf.1)
  subst hs
  exact hf.1.unique hg.1

/-! ## Ends of functions -/

structure EndsHeadAt (masked : List Char) (close stop n : Nat) (c : Char) : Prop where
  hasAt : HasAt masked n c
  endsHead : endsHead c = true
  le : close ≤ n
  lt : n < stop
  first : ∀ m d, HasAt masked m d → close ≤ m → m < n → Source.endsHead d = false

/-- The offset behind the function whose parameters open at `opening`: behind the brace that closes
its body, or behind its semicolon. A function without either reaches to the end of the range, and so
does one with a bracket that is never closed. -/
inductive FunctionEnd (masked : List Char) (stop opening : Nat) : Nat → Prop
  | unclosed (hclose : findClosing masked opening = none) : FunctionEnd masked stop opening stop
  | headOnly {close : Nat} (hclose : findClosing masked opening = some close) (hle : close ≤ stop)
      (hnone : ∀ n c, HasAt masked n c → close ≤ n → n < stop → endsHead c = false) :
      FunctionEnd masked stop opening stop
  | semicolon {close n : Nat} (hclose : findClosing masked opening = some close)
      (hn : EndsHeadAt masked close stop n ';') : FunctionEnd masked stop opening (n + 1)
  | body {close n last : Nat} (hclose : findClosing masked opening = some close)
      (hn : EndsHeadAt masked close stop n '\x7b') (hlast : findClosing masked n = some last) :
      FunctionEnd masked stop opening (last + 1)
  | openBody {close n : Nat} (hclose : findClosing masked opening = some close)
      (hn : EndsHeadAt masked close stop n '\x7b') (hlast : findClosing masked n = none) :
      FunctionEnd masked stop opening stop

theorem EndsHeadAt.unique {close m n : Nat} {c d : Char} (hm : EndsHeadAt masked close stop m c)
    (hn : EndsHeadAt masked close stop n d) : m = n ∧ c = d := by
  have heq : m = n := by
    rcases Nat.lt_trichotomy m n with hlt | heq | hlt
    · exact absurd (hn.first m c hm.hasAt hm.le hlt) (by simp [hm.endsHead])
    · exact heq
    · exact absurd (hm.first n d hn.hasAt hn.le hlt) (by simp [hn.endsHead])
  subst heq
  exact ⟨rfl, hm.hasAt.unique hn.hasAt⟩

theorem EndsHeadAt.not_headOnly {close n : Nat} {c : Char} (h : EndsHeadAt masked close stop n c)
    (hnone : ∀ n c, HasAt masked n c → close ≤ n → n < stop → Source.endsHead c = false) :
    False := by
  have := hnone n c h.hasAt h.le h.lt
  rw [h.endsHead] at this
  cases this

namespace FunctionEnd

variable {opening e e' : Nat}

theorem isResume (h : FunctionEnd masked stop opening e) : IsResume masked stop e := by
  cases h with
  | unclosed | headOnly | openBody => exact .inl le_rfl
  | semicolon hclose hn => exact .inr ⟨_, _, rfl, hn.hasAt, by decide⟩
  | body hclose hn hlast =>
    exact .inr ⟨_, _, rfl, (hasAt_of_findClosing hn.hasAt rfl hlast).1, by decide⟩

theorem lt (h : FunctionEnd masked stop opening e) (hopen : HasAt masked opening '(')
    (hlt : opening < stop) :
    opening < e := by
  cases h with
  | unclosed | headOnly | openBody => exact hlt
  | semicolon hclose hn =>
    have := (hasAt_of_findClosing hopen rfl hclose).2
    have := hn.le
    omega
  | body hclose hn hlast =>
    have := (hasAt_of_findClosing hopen rfl hclose).2
    have := (hasAt_of_findClosing hn.hasAt rfl hlast).2
    have := hn.le
    omega

theorem unique (h : FunctionEnd masked stop opening e) (h' : FunctionEnd masked stop opening e') :
    e = e' := by
  cases h <;> cases h' <;> grind [EndsHeadAt.unique, EndsHeadAt.not_headOnly]

end FunctionEnd

theorem not_of_findFrom_none {p : Char → Bool} {pos n : Nat} {d : Char} {cs : List Char}
    (h : findFrom p pos cs = none) (hd : HasAt cs n d) : p d = false := by
  induction cs generalizing pos n with
  | nil => exact absurd hd.mem List.not_mem_nil
  | cons e es ih =>
    rw [findFrom] at h
    split at h
    · cases h
    · next he =>
      obtain ⟨front, rest, heq, hn⟩ := hd
      cases front with
      | nil =>
        obtain ⟨rfl, -⟩ := List.cons.inj heq
        simpa using he
      | cons x front =>
        obtain ⟨rfl, htail⟩ := List.cons.inj heq
        exact ih h ⟨front, rest, htail, rfl⟩

theorem functionEnd_afterFunction (hstop : isBoundary masked stop = true) {opening close : Nat}
    (hopen : HasAt masked opening '(') (hclose : findClosing masked opening = some close)
    (hle : close ≤ stop) : FunctionEnd masked stop opening (afterFunction masked stop close) := by
  have hcut := (hasAt_of_findClosing hopen rfl hclose).1.isBoundary
  obtain ⟨l, w, r, rfl, hl, hw⟩ := exists_parts_of_isBoundary hcut hstop hle
  -- what stands between the two offsets stands in the middle part
  have hmiddle : ∀ n c, HasAt (l ++ (w ++ r)) n c → close ≤ n → n < stop →
      HasAt w (n - close) c := by
    intro n c hat hlow hhigh
    have := (hat.right (by omega)).left (by omega)
    rwa [hl] at this
  unfold afterFunction
  rw [takeBytes_dropBytes hl hw]
  cases hf : findFrom endsHead close w with
  | none =>
    refine .headOnly hclose hle fun n c hat hlow hhigh => ?_
    exact not_of_findFrom_none hf (hmiddle n c hat hlow hhigh)
  | some found =>
    obtain ⟨n, c⟩ := found
    have hlow := le_findFrom hf
    obtain ⟨hat, hends⟩ := hasAt_of_findFrom hf
    have hn : EndsHeadAt (l ++ (w ++ r)) close stop n c := by
      refine ⟨?_, hends, hlow, ?_, fun m d hd hclose hlt => ?_⟩
      · have := (hat.append_right r).append_left l
        rwa [hl, Nat.add_sub_cancel' hlow] at this
      · have := hat.lt
        omega
      · have := hat.lt
        exact not_of_lt_findFrom hf (hmiddle m d hd hclose (by omega)) (by omega)
    simp only
    split
    · next hc =>
      subst hc
      exact .semicolon hclose hn
    · next hc =>
      have hbrace : c = '\x7b' := by
        have : c = '\x7b' ∨ c = ';' := by simpa [endsHead] using hends
        exact this.resolve_right hc
      subst hbrace
      split
      · next last hlast => exact .body hclose hn hlast
      · next hlast => exact .openBody hclose hn hlast

/-! ## The search, head by head -/

inductive Search (masked : List Char) (stop : Nat) :
    Nat → Except ScanError (List FunctionSpan) → Prop
  | done {start : Nat} (hnone : ∀ s f, ¬Declares masked start stop s f) :
    Search masked stop start (.ok [])
  | beyond {start s close : Nat} {f : FunctionSpan} (hfirst : First masked start stop s f)
      (hclose : findClosing masked f.paramsOpen = some close) (hlt : stop < close) :
      Search masked stop start (.error .paramsBeyondEnd)
  | step {start s e : Nat} {f : FunctionSpan} {result : Except ScanError (List FunctionSpan)}
      (hfirst : First masked start stop s f) (hend : FunctionEnd masked stop f.paramsOpen e)
      (hrest : Search masked stop e result) : Search masked stop start (result.map (f :: ·))

theorem Search.of_le (h : stop ≤ start) : Search masked stop start (.ok []) := by
  refine .done fun s f hf => ?_
  have := hf.bounds
  omega

theorem not_declares_of_none (hstart : isBoundary masked start = true)
    (hstop : isBoundary masked stop = true) (hle : start ≤ stop)
    (h : firstOccurrence? functionHeader? none start
      (takeBytes (stop - start) (dropBytes start masked)) =
        none) : ¬Declares masked start stop s f := by
  obtain ⟨l, w, r, rfl, hl, hw⟩ := exists_parts_of_isBoundary hstart hstop hle
  rw [takeBytes_dropBytes hl hw] at h
  rintro ⟨front, head, rest, hhead, -, -⟩
  obtain ⟨u, v, -, rfl, -, hbegins⟩ := (headIn_iff hl hw).mp hhead
  have hsilent := silent_of_firstOccurrence?_eq_none h u _ rfl (by simp)
  rw [List.append_nil, head.header?_text hbegins] at hsilent
  cases hsilent

theorem first_of_some (hstart : isBoundary masked start = true)
    (hstop : isBoundary masked stop = true) (hle : start ≤ stop) {o : Occurrence}
    (h : firstOccurrence? functionHeader? none start
      (takeBytes (stop - start) (dropBytes start masked)) = some o) :
    ∃ s, First masked start stop s ⟨String.ofList o.name, o.stop - 1⟩ := by
  obtain ⟨l, w, r, rfl, hl, hw⟩ := exists_parts_of_isBoundary hstart hstop hle
  rw [takeBytes_dropBytes hl hw] at h
  obtain ⟨u, v, found, rfl, hsilent, hf, hend, hname⟩ :=
    IsHeader.ofFunction.silent_of_firstOccurrence? h
  obtain ⟨hbegins, head, hhead, rfl⟩ := functionHeader?_eq_some_iff.mp hf
  refine ⟨byteLength (l ++ u), ⟨l ++ u, head, found.rest ++ r,
    (headIn_iff hl hw).mpr ⟨u, found.rest, rfl, rfl, rfl, hbegins⟩, rfl, ?_⟩, ?_⟩
  · have hone : '('.utf8Size = 1 := by decide
    simp only [FunctionHead.span, hhead, hname, FunctionSpan.mk.injEq, true_and]
    simp only [byteLength_append, byteLength_cons, hone] at hend ⊢
    omega
  · rintro s' g ⟨front, head', rest, hhead', rfl, -⟩
    obtain ⟨u', v', rfl, hcut, -, hbegins'⟩ := (headIn_iff hl hw).mp hhead'
    rw [byteLength_append, byteLength_append, Nat.add_le_add_iff_left]
    by_contra hlt
    -- a head that begins earlier begins in the silent part
    obtain ⟨x, rfl, hx⟩ := exists_append_of_byteLength_le hcut.symm (by omega)
    have hne : x ≠ [] := by
      rintro rfl
      simp at hlt
    have hnone := hsilent u' x rfl hne
    rw [← hx, head'.header?_text hbegins'] at hnone
    cases hnone

theorem IsResume.isBoundary {e : Nat} (h : IsResume masked stop e) (hlt : e < stop) :
    Text.isBoundary masked e = true := by
  obtain ⟨n, c, rfl, hn, hc⟩ := h.resolve_left (by omega)
  exact hn.isBoundary_succ (utf8Size_of_isBreak hc)

/-- A search that may take a step for each byte of the range comes to its end. -/
theorem search_functionSpansFrom (hstop : isBoundary masked stop = true) {steps start : Nat}
    (hsteps : stop - start ≤ steps) (hstart : start < stop → isBoundary masked start = true) :
    Search masked stop start (functionSpansFrom masked stop steps start) := by
  induction steps generalizing start with
  | zero => exact .of_le (by omega)
  | succ steps ih =>
    by_cases hle : stop ≤ start
    · rw [functionSpansFrom_of_le hle]
      exact .of_le hle
    have hlt : start < stop := by omega
    cases ho : firstOccurrence? functionHeader? none start
        (takeBytes (stop - start) (dropBytes start masked)) with
    | none =>
      rw [functionSpansFrom_of_none ho]
      exact .done fun s f => not_declares_of_none (hstart hlt) hstop hlt.le ho
    | some o =>
      rw [functionSpansFrom_of_some hlt ho]
      obtain ⟨s, hfirst⟩ := first_of_some (hstart hlt) hstop hlt.le ho
      obtain ⟨hlow, hs, hhigh⟩ := hfirst.1.bounds
      have hopen := hfirst.1.hasAt
      simp only at hs hhigh hopen
      cases hclose : findClosing masked (o.stop - 1) with
      | none => exact .step hfirst (.unclosed hclose) (.of_le le_rfl)
      | some close =>
        simp only
        split
        · next hbeyond => exact .beyond hfirst hclose hbeyond
        · next hinside =>
          have hend := functionEnd_afterFunction hstop hopen hclose (by omega)
          have hmoved := hend.lt hopen hhigh
          exact .step hfirst hend (ih (by omega) hend.isResume.isBoundary)

/-! ## What is reported -/

/-- The functions that a search comes to: the first one of the range, and from each of them the
first one behind its end. -/
inductive Reached (masked : List Char) (start stop : Nat) : FunctionSpan → Prop
  | first {s : Nat} {f : FunctionSpan} (h : First masked start stop s f) :
    Reached masked start stop f
  | next {s e : Nat} {f g : FunctionSpan} (hf : Reached masked start stop f)
      (hend : FunctionEnd masked stop f.paramsOpen e) (hg : First masked e stop s g) :
      Reached masked start stop g

def ClosesBeyond (masked : List Char) (stop : Nat) (f : FunctionSpan) : Prop :=
  ∃ close, findClosing masked f.paramsOpen = some close ∧ stop < close

theorem Reached.of_next {e : Nat} (hf : Reached masked start stop f)
    (hend : FunctionEnd masked stop f.paramsOpen e) (hg : Reached masked e stop g) :
    Reached masked start stop g := by
  induction hg with
  | first h => exact .next hf hend h
  | next _ hend' hg ih => exact .next ih hend' hg

theorem Reached.cases_first (hfirst : First masked start stop s f)
    (hg : Reached masked start stop g) :
    g = f ∨ ∃ e, FunctionEnd masked stop f.paramsOpen e ∧ Reached masked e stop g := by
  induction hg with
  | first h => exact .inl (h.unique hfirst)
  | next _ hend hg ih =>
    rcases ih with rfl | ⟨e, he, hreached⟩
    · exact .inr ⟨_, hend, .first hg⟩
    · exact .inr ⟨e, he, .next hreached hend hg⟩

theorem not_reached (hnone : ∀ s f, ¬Declares masked start stop s f) :
    ¬Reached masked start stop g := by
  intro hg
  induction hg with
  | first h => exact hnone _ _ h.1
  | next _ _ _ ih => exact ih

theorem FunctionEnd.not_closesBeyond {e : Nat} (h : FunctionEnd masked stop f.paramsOpen e) :
    ¬ClosesBeyond masked stop f := by
  rintro ⟨close, hclose, hlt⟩
  cases h with
  | unclosed hnone => simp [hnone] at hclose
  | headOnly hsome hle =>
    obtain rfl : _ = close := by simpa [hsome] using hclose
    omega
  | semicolon hsome hn | body hsome hn | openBody hsome hn =>
    obtain rfl : _ = close := by simpa [hsome] using hclose
    have := hn.le
    have := hn.lt
    omega

/-- A search fails exactly if it comes to a function whose parameters are closed behind the end. -/
theorem Search.error_iff {result : Except ScanError (List FunctionSpan)}
    (h : Search masked stop start result) :
    result = .error .paramsBeyondEnd ↔ ∃ f, Reached masked start stop f ∧
      ClosesBeyond masked stop f := by
  induction h with
  | done hnone =>
    constructor
    · intro h
      cases h
    · rintro ⟨f, hf, -⟩
      exact (not_reached hnone hf).elim
  | beyond hfirst hclose hlt => exact ⟨fun _ => ⟨_, .first hfirst, _, hclose, hlt⟩, fun _ => rfl⟩
  | @step start s e f result hfirst hend hrest ih =>
    have hmap : result.map (f :: ·) = .error .paramsBeyondEnd ↔
        result = .error .paramsBeyondEnd := by
      cases result <;> simp [Except.map]
    rw [hmap, ih]
    constructor
    · rintro ⟨g, hg, hbeyond⟩
      exact ⟨g, .of_next (.first hfirst) hend hg, hbeyond⟩
    · rintro ⟨g, hg, hbeyond⟩
      rcases hg.cases_first hfirst with rfl | ⟨e', he', hg⟩
      · exact (hend.not_closesBeyond hbeyond).elim
      · rw [hend.unique he']
        exact ⟨g, hg, hbeyond⟩

/-- The head that begins at `s` lies inside a function: between its parenthesis and its end. -/
def Inside (masked : List Char) (stop : Nat) (f : FunctionSpan) (s : Nat)
    (g : FunctionSpan) : Prop :=
  f.paramsOpen < s ∧ ∃ e, FunctionEnd masked stop f.paramsOpen e ∧ g.paramsOpen < e

/-- The functions of a range in their order, where those inside others are left out. -/
structure Reports (masked : List Char) (start stop : Nat) (spans : List FunctionSpan) : Prop where
  ordered : spans.Pairwise fun f g => f.paramsOpen < g.paramsOpen
  declared : ∀ f ∈ spans, ∃ s, Declares masked start stop s f
  ends : ∀ f ∈ spans, ∃ e, FunctionEnd masked stop f.paramsOpen e
  /-- Each one begins behind the ends of those before it. -/
  apart : spans.Pairwise fun f g => ∀ e s, FunctionEnd masked stop f.paramsOpen e →
    Declares masked start stop s g → e ≤ s
  /-- Each head that lies inside none of them is listed. Of the heads that end with one parenthesis
  it is the one that begins first. -/
  complete : ∀ s g, Declares masked start stop s g → (∀ f ∈ spans, ¬Inside masked stop f s g) →
    (∃ f ∈ spans, f.paramsOpen = g.paramsOpen) ∧
    ((∀ s' g', Declares masked start stop s' g' → g'.paramsOpen = g.paramsOpen → s ≤ s') →
      g ∈ spans)

theorem Reports.nil (hnone : ∀ s f, ¬Declares masked start stop s f) :
    Reports masked start stop [] where
  ordered := .nil
  declared := by simp
  ends := by simp
  apart := .nil
  complete := fun s g hg _ => (hnone s g hg).elim

theorem Reports.cons {e : Nat} {spans : List FunctionSpan} (hfirst : First masked start stop s f)
    (hend : FunctionEnd masked stop f.paramsOpen e) (h : Reports masked e stop spans) :
    Reports masked start stop (f :: spans) := by
  have hf := hfirst.1
  have hlt : f.paramsOpen < e := hend.lt hf.hasAt hf.bounds.2.2
  have hstart : start ≤ e := by
    have := hf.bounds
    omega
  -- the heads of the functions behind the end
  have hbehind : ∀ {g s'}, g ∈ spans → Declares masked start stop s' g → e ≤ s' := by
    intro g s' hg hs'
    obtain ⟨s'', hs''⟩ := h.declared g hg
    have := hs''.bounds
    exact hs'.le_of_resume hend.isResume (by omega)
  refine ⟨?_, ?_, ?_, ?_, ?_⟩
  · refine List.pairwise_cons.mpr ⟨fun g hg => ?_, h.ordered⟩
    obtain ⟨s', hs'⟩ := h.declared g hg
    have := hs'.bounds
    omega
  · intro g hg
    rcases List.mem_cons.mp hg with rfl | hg
    · exact ⟨s, hf⟩
    · obtain ⟨s', hs'⟩ := h.declared g hg
      exact ⟨s', hs'.earlier hstart hend.isResume⟩
  · intro g hg
    rcases List.mem_cons.mp hg with rfl | hg
    · exact ⟨e, hend⟩
    · exact h.ends g hg
  · refine List.pairwise_cons.mpr ⟨fun g hg e' s' he' hs' => ?_, ?_⟩
    · rw [← hend.unique he']
      exact hbehind hg hs'
    · refine h.apart.imp_of_mem fun {f' g} _ hg hapart e' s' he' hs' => ?_
      exact hapart e' s' he' (hs'.later hstart (hbehind hg hs'))
  · intro s' g hg hout
    rcases hf.eq_or_lt hg (hfirst.2 _ _ hg) with heq | hafter
    · refine ⟨⟨f, List.mem_cons_self, heq.symm⟩, fun hleast => ?_⟩
      have hs : s' = s := Nat.le_antisymm (hleast s f hf heq.symm) (hfirst.2 _ _ hg)
      subst hs
      rw [hg.unique hf]
      exact List.mem_cons_self
    · -- a head behind the parenthesis stands behind the end, as it is not inside
      have hge : e ≤ g.paramsOpen := by
        by_contra hinside
        exact hout f List.mem_cons_self ⟨hafter, e, hend, by omega⟩
      have hg' := hg.later hstart (hg.le_of_resume hend.isResume hge)
      obtain ⟨⟨f', hf', heq⟩, hlisted⟩ :=
        h.complete s' g hg' fun f' hf' => hout f' (List.mem_cons_of_mem _ hf')
      refine ⟨⟨f', List.mem_cons_of_mem _ hf', heq⟩,
        fun hleast => List.mem_cons_of_mem _ (hlisted ?_)⟩
      exact fun s'' g' hs'' => hleast s'' g' (hs''.earlier hstart hend.isResume)

theorem Search.reports {result : Except ScanError (List FunctionSpan)}
    (h : Search masked stop start result) {spans : List FunctionSpan} (hok : result = .ok spans) :
    Reports masked start stop spans := by
  induction h generalizing spans with
  | done hnone =>
    cases hok
    exact .nil hnone
  | beyond => cases hok
  | @step start s e f result hfirst hend hrest ih =>
    cases result with
    | error => cases hok
    | ok later =>
      cases hok
      exact .cons hfirst hend (ih rfl)

/-- Each offset at which the search cuts the text lies between two characters. -/
theorem Reached.isBoundary (h : Reached masked start stop f) :
    (∀ close, findClosing masked f.paramsOpen = some close → Text.isBoundary masked close = true) ∧
    ∀ e, FunctionEnd masked stop f.paramsOpen e → e < stop → Text.isBoundary masked e = true := by
  have hopen : HasAt masked f.paramsOpen '(' := by
    cases h with
    | first h => exact h.1.hasAt
    | next _ _ h => exact h.1.hasAt
  constructor
  · intro close hclose
    exact (hasAt_of_findClosing hopen rfl hclose).1.isBoundary
  · intro e he hlt
    exact he.isResume.isBoundary hlt

end

/-- A search of the whole text does not fail. -/
theorem exists_functionSpans (masked : List Char) :
    ∃ spans, functionSpans masked 0 (byteLength masked) = .ok spans ∧
      Reports masked 0 (byteLength masked) spans := by
  have hstop : isBoundary masked (byteLength masked) = true := by
    simpa using isBoundary_byteLength masked []
  have hsearch : Search masked (byteLength masked) 0 (functionSpans masked 0 (byteLength masked)) :=
    search_functionSpansFrom hstop le_rfl fun _ => isBoundary_byteLength [] masked
  cases hspans : functionSpans masked 0 (byteLength masked) with
  | ok spans => exact ⟨spans, rfl, hsearch.reports hspans⟩
  | error e =>
    cases e
    rw [hspans] at hsearch
    obtain ⟨f, -, close, hclose, hlt⟩ := hsearch.error_iff.mp rfl
    obtain ⟨c, d, hc, hd⟩ := hasAt_of_findClosing_some hclose
    have := (hasAt_of_findClosing hc hd hclose).1.lt
    omega

/-- The search for the functions of a class. A step for each byte of the body is enough; the search
cuts the text only between characters, and fails exactly if it comes to a function whose parameters
are closed behind the body. Otherwise it reports the functions of the body that are inside no other
one. A search of the whole text never fails. -/
theorem methods_reported (masked : List Char) :
    (∀ c ∈ classSpans masked,
      (∀ steps, c.bodyStop - c.bodyStart ≤ steps →
        functionSpansFrom masked c.bodyStop steps c.bodyStart = methodSpans masked c) ∧
      (isBoundary masked c.bodyStart = true ∧ isBoundary masked c.bodyStop = true ∧
        ∀ f, Reached masked c.bodyStart c.bodyStop f →
          (∀ close, findClosing masked f.paramsOpen = some close → isBoundary masked close = true) ∧
          ∀ e, FunctionEnd masked c.bodyStop f.paramsOpen e → e < c.bodyStop →
          isBoundary masked e = true) ∧
      (methodSpans masked c = .error .paramsBeyondEnd ↔
        ∃ f, Reached masked c.bodyStart c.bodyStop f ∧ ClosesBeyond masked c.bodyStop f) ∧
      ∀ spans, methodSpans masked c = .ok spans → Reports masked c.bodyStart c.bodyStop spans) ∧
    ∃ spans, functionSpans masked 0 (byteLength masked) = .ok spans ∧
      Reports masked 0 (byteLength masked) spans := by
  refine ⟨fun c hc => ?_, exists_functionSpans masked⟩
  obtain ⟨n, hstart, hopen, hstop, -⟩ := hasAt_of_mem_classSpans hc
  have hcut : isBoundary masked c.bodyStart = true := by
    rw [hstart]
    exact hopen.isBoundary_succ (by decide)
  have hsearch : Search masked c.bodyStop c.bodyStart (methodSpans masked c) :=
    search_functionSpansFrom hstop.isBoundary le_rfl fun _ => hcut
  exact ⟨fun steps hsteps => functionSpansFrom_eq_functionSpans hsteps,
    ⟨hcut, hstop.isBoundary, fun f hf => hf.isBoundary⟩, hsearch.error_iff,
    fun spans hspans => hsearch.reports hspans⟩

/-- A class whose first method has a function inside, and one whose method is not closed in its
body. -/
def nestedClasses : List Char :=
  ("class A \x7b function f() \x7b function g() \x7b\x7d \x7d function h(); \x7d " ++
    "class B \x7b function k( \x7d )").toList

theorem methods_reported_nested :
    (⟨"", "A", 9, 57⟩ : ClassSpan) ∈ classSpans nestedClasses ∧
      (⟨"", "B", 68, 81⟩ : ClassSpan) ∈ classSpans nestedClasses ∧
      Reports nestedClasses 9 57 [⟨"f", 20⟩, ⟨"h", 53⟩] ∧
      ∃ f, Reached nestedClasses 68 81 f ∧ ClosesBeyond nestedClasses 81 f := by
  have hA : (⟨"", "A", 9, 57⟩ : ClassSpan) ∈ classSpans nestedClasses := by decide +kernel
  have hB : (⟨"", "B", 68, 81⟩ : ClassSpan) ∈ classSpans nestedClasses := by decide +kernel
  obtain ⟨-, -, -, hreports⟩ := (methods_reported nestedClasses).1 _ hA
  obtain ⟨-, -, hfails, -⟩ := (methods_reported nestedClasses).1 _ hB
  exact ⟨hA, hB, hreports _ (by decide +kernel), hfails.mp (by decide +kernel)⟩

end SignatureInference.Source
