import SignatureInference.Proofs.Source.Spans

/-! # Heads of functions

The head of a function is the keyword, a gap, the name, and blanks in front of a parenthesis. The
gap may be empty, so that a call of something whose name only begins with the keyword is taken for a
head as well. Each function that is found has a head in the range that is searched, and the first
head of the range is found.
-/
namespace SignatureInference.Source

open Text

/-- What may stand between the keyword and the name: blanks, and perhaps an ampersand among them. -/
def IsGap (gap : List Char) : Prop :=
  ∃ a amp b, gap = a ++ (amp ++ b) ∧ (amp = [] ∨ amp = ['&']) ∧ (∀ c ∈ a, isBlank c = true) ∧
    ∀ c ∈ b, isBlank c = true

structure FunctionHead where
  keyword : List Char
  gap : List Char
  name : List Char
  blanks : List Char
  keyword_eq : keyword.map foldLetter = "function".toList
  gap_ok : IsGap gap
  name_start : name.head?.any isNameStart = true
  name_part : ∀ c ∈ name, isNamePart c = true
  blanks_ok : ∀ c ∈ blanks, isBlank c = true

namespace FunctionHead

def text (head : FunctionHead) :
    List Char := head.keyword ++ (head.gap ++ (head.name ++ head.blanks))

def span (head : FunctionHead) (front : List Char) : FunctionSpan :=
  ⟨String.ofList head.name, byteLength (front ++ head.text)⟩

/-- Whether the character in front of the name is a blank or an ampersand. -/
def standsApart (head : FunctionHead) (front : List Char) : Bool :=
  (front ++ (head.keyword ++ head.gap)).getLast?.any fun c => isBlank c || c == '&'

theorem standsApart_iff (head : FunctionHead) (front : List Char) :
    head.standsApart front = true ↔ head.gap ≠ [] := by
  rcases List.eq_nil_or_concat' head.gap with hgap | ⟨gap, c, hgap⟩
  · -- the keyword ends with a letter
    obtain ⟨word, c, hword⟩ : ∃ word c, head.keyword = word ++ [c] := by
      rcases List.eq_nil_or_concat' head.keyword with hnil | h
      · have := head.keyword_eq
        simp [hnil] at this
      · exact h
    have hc : foldLetter c = 'n' := by
      have := congrArg List.getLast? head.keyword_eq
      simpa [hword] using this
    have hblank : isBlank c = false := by
      by_contra hblank
      have hsame := foldLetter_of_isBlank (by simpa using hblank)
      rw [← hsame, hc] at hblank
      exact hblank (by decide)
    have hamp : c ≠ '&' := by
      rintro rfl
      exact absurd hc (by decide)
    simp [standsApart, hgap, hword, hblank, hamp]
  · have hc : isBlank c = true ∨ c = '&' := by
      obtain ⟨a, amp, b, heq, hamp, ha, hb⟩ := head.gap_ok
      have hmem : c ∈ a ++ (amp ++ b) := by
        rw [← heq, hgap]
        simp
      rcases List.mem_append.mp hmem with hmem | hmem
      · exact .inl (ha c hmem)
      · rcases List.mem_append.mp hmem with hmem | hmem
        · rcases hamp with rfl | rfl
          · cases hmem
          · exact .inr (by simpa using hmem)
        · exact .inl (hb c hmem)
    simpa [standsApart, hgap] using hc

end FunctionHead

/-! ## What the pattern matches -/

theorem dropWord?_append {w v : List Char} (h : v.map foldLetter = w) (rest : List Char) :
    dropWord? w (v ++ rest) = some rest := by
  subst h
  induction v with
  | nil => rfl
  | cons c v ih => simp [dropWord?, ih]

theorem functionTail?_eq_some {cs : List Char} {f : Found} (h : functionTail? cs = some f) :
    ∃ gap blanks, cs = gap ++ (f.name ++ (blanks ++ '(' :: f.rest)) ∧ IsGap gap ∧
      f.name.head?.any isNameStart = true ∧ (∀ c ∈ f.name, isNamePart c = true) ∧
      ∀ c ∈ blanks, isBlank c = true := by
  unfold functionTail? at h
  obtain ⟨⟨name, behind⟩, hname, h⟩ := Option.bind_eq_some_iff.mp h
  obtain ⟨rest, hrest, h⟩ := Option.bind_eq_some_iff.mp h
  cases h
  obtain ⟨hcut, hstart, hpart, -⟩ := takeName?_eq_some_iff.mp hname
  obtain ⟨a, ha, hablank⟩ := exists_append_trimStart cs
  obtain ⟨blanks, hblanks, hblank⟩ := exists_append_trimStart behind
  have hopen : trimStart behind = '(' :: rest := eq_append_of_dropHead? hrest
  obtain ⟨amp, hamp, heq⟩ : ∃ amp, (amp = [] ∨ amp = ['&']) ∧
      trimStart cs = amp ++ (dropHead? ['&'] (trimStart cs)).getD (trimStart cs) := by
    cases hd : dropHead? ['&'] (trimStart cs) with
    | none => exact ⟨[], .inl rfl, rfl⟩
    | some v => exact ⟨['&'], .inr rfl, eq_append_of_dropHead? hd⟩
  obtain ⟨b, hb, hbblank⟩ :=
    exists_append_trimStart ((dropHead? ['&'] (trimStart cs)).getD (trimStart cs))
  refine ⟨a ++ (amp ++ b), blanks, ?_, ⟨a, amp, b, rfl, hamp, hablank, hbblank⟩, hstart,
    hpart, hblank⟩
  rw [hopen] at hblanks
  calc cs = a ++ trimStart cs := ha
    _ = a ++ (amp ++ (dropHead? ['&'] (trimStart cs)).getD (trimStart cs)) := by rw [← heq]
    _ = a ++ (amp ++ (b ++ (name ++ (blanks ++ '(' :: rest)))) := by rw [← hblanks, ← hcut, ← hb]
    _ = a ++ (amp ++ b) ++ (name ++ (blanks ++ '(' :: rest)) := by simp

theorem functionTail?_gap {gap name blanks : List Char} (hgap : IsGap gap)
    (hstart : name.head?.any isNameStart = true) (hpart : ∀ c ∈ name, isNamePart c = true)
    (hblanks : ∀ c ∈ blanks, isBlank c = true) (rest : List Char) :
    functionTail? (gap ++ (name ++ (blanks ++ '(' :: rest))) = some ⟨name, rest⟩ := by
  obtain ⟨a, amp, b, rfl, hamp, ha, hb⟩ := hgap
  -- the name is neither blank nor an ampersand at its beginning
  obtain ⟨c, cs, hname⟩ : ∃ c cs, name = c :: cs := by
    cases name with
    | nil => cases hstart
    | cons c cs => exact ⟨c, cs, rfl⟩
  have hc : isNameStart c = true := by simpa [hname] using hstart
  have hblank : isBlank c = false := by
    by_contra hblank
    have := isNamePart_of_isNameStart hc
    rw [isNamePart_of_isBlank (by simpa using hblank)] at this
    cases this
  have hne : '&' ≠ c := by
    rintro rfl
    exact absurd hc (by decide)
  have htrim : ∀ {v : List Char}, (∀ d ∈ v, isBlank d = true) →
      trimStart (v ++ (name ++ (blanks ++ '(' :: rest))) = name ++ (blanks ++ '(' :: rest) := by
    intro v hv
    rw [trimStart_blanks hv, hname, List.cons_append, trimStart_cons_of_not_blank hblank]
  have hbehind : takeName? (name ++ (blanks ++ '(' :: rest)) =
      some (name, blanks ++ '(' :: rest) := by
    refine takeName?_eq_some_iff.mpr ⟨rfl, hstart, hpart, ?_⟩
    cases blanks with
    | nil => rfl
    | cons d blanks => simpa using isNamePart_of_isBlank (hblanks d List.mem_cons_self)
  have hopen : dropHead? ['('] (trimStart (blanks ++ '(' :: rest)) = some rest := by
    rw [trimStart_blanks hblanks, trimStart_cons_of_not_blank (by decide)]
    exact dropHead?_append ['('] rest
  have hafter : trimStart
    ((dropHead? ['&'] (trimStart (a ++ (amp ++ (b ++ (name ++ (blanks ++ '(' :: rest))))))).getD
      (trimStart (a ++ (amp ++ (b ++ (name ++ (blanks ++ '(' :: rest))))))) =
        name ++ (blanks ++ '(' :: rest) := by
    rcases hamp with rfl | rfl
    · have hnot : dropHead? ['&'] (name ++ (blanks ++ '(' :: rest)) = none := by
        simp [hname, dropHead?, hne]
      rw [trimStart_blanks ha, List.nil_append, htrim hb, hnot, Option.getD_none]
      exact htrim (v := []) (by simp)
    · rw [trimStart_blanks ha, List.singleton_append, trimStart_cons_of_not_blank (by decide)]
      exact htrim hb
  have hassoc : a ++ (amp ++ b) ++ (name ++ (blanks ++ '(' :: rest)) =
      a ++ (amp ++ (b ++ (name ++ (blanks ++ '(' :: rest)))) := by simp
  simp only [functionTail?, hassoc, hafter, hbehind, Option.bind_eq_bind, Option.bind_some, hopen]
  rfl

/-- The pattern matches the heads of functions where a word may begin. -/
theorem functionHeader?_eq_some_iff {previous : Option Char} {cs : List Char} {f : Found} :
    functionHeader? previous cs = some f ↔
      wordMayBegin previous = true ∧ ∃ head : FunctionHead, head.name = f.name ∧
        cs = head.text ++ '(' :: f.rest := by
  rw [functionHeader?_eq, headed]
  constructor
  · intro h
    split at h
    · next hbegin =>
      obtain ⟨r, hr, hf⟩ := Option.bind_eq_some_iff.mp h
      obtain ⟨keyword, rfl, hkeyword⟩ := exists_append_of_dropWord? hr
      obtain ⟨gap, blanks, rfl, hgap, hstart, hpart, hblanks⟩ := functionTail?_eq_some hf
      refine ⟨hbegin, ⟨keyword, gap, f.name, blanks, hkeyword, hgap, hstart, hpart, hblanks⟩, rfl,
        ?_⟩
      simp [FunctionHead.text]
    · cases h
  · rintro ⟨hbegin, head, hname, rfl⟩
    have htext : head.text ++ '(' :: f.rest =
        head.keyword ++ (head.gap ++ (head.name ++ (head.blanks ++ '(' :: f.rest))) := by
      simp [FunctionHead.text]
    rw [if_pos hbegin, htext, dropWord?_append head.keyword_eq, Option.bind_some,
      functionTail?_gap head.gap_ok head.name_start head.name_part head.blanks_ok, hname]

/-! ## Heads in a range -/

/-- A head between two offsets of a text, behind `front`, where a word may begin. -/
structure HeadIn (masked : List Char) (start stop : Nat) (front : List Char) (head : FunctionHead)
    (rest : List Char) : Prop where
  eq : masked = front ++ (head.text ++ '(' :: rest)
  start_le : start ≤ byteLength front
  lt_stop : byteLength (front ++ head.text) < stop
  begins : byteLength front = start ∨ wordMayBegin front.getLast? = true

section

variable {masked front rest l w r : List Char} {head : FunctionHead} {start stop : Nat}

theorem lastOf_none (u : List Char) : lastOf none u = u.getLast? := Option.or_none

theorem headIn_iff (hl : byteLength l = start) (hw : start + byteLength w = stop) :
    HeadIn (l ++ (w ++ r)) start stop front head rest ↔
      ∃ u f, front = l ++ u ∧ w = u ++ (head.text ++ '(' :: f) ∧ rest = f ++ r ∧
        wordMayBegin (lastOf none u) = true := by
  have hone : '('.utf8Size = 1 := by decide
  constructor
  · intro h
    obtain ⟨u, rfl, hu⟩ := exists_append_of_byteLength_le h.eq (hl.trans_le h.start_le)
    have hassoc : w ++ r = (u ++ (head.text ++ ['('])) ++ rest := by simp [hu]
    obtain ⟨f, rfl, rfl⟩ := exists_append_of_byteLength_le hassoc.symm (by
      have := h.lt_stop
      simp only [byteLength_append, byteLength_cons, byteLength_nil, hone] at this ⊢
      omega)
    refine ⟨u, f, rfl, by simp, rfl, ?_⟩
    rw [lastOf_none]
    rcases h.begins with hbegins | hbegins
    · have : u = [] := by
        rw [byteLength_append] at hbegins
        exact eq_nil_of_byteLength_eq_zero (by omega)
      rw [this]
      rfl
    · rw [List.getLast?_append] at hbegins
      cases hu : u.getLast? with
      | none => rfl
      | some c =>
        rw [hu] at hbegins
        exact hbegins
  · rintro ⟨u, f, rfl, rfl, rfl, hbegins⟩
    refine ⟨by simp, by rw [byteLength_append]; omega, ?_, ?_⟩
    · simp only [byteLength_append, byteLength_cons, hone] at hw ⊢
      omega
    · rw [lastOf_none] at hbegins
      rcases List.eq_nil_or_concat' u with rfl | ⟨u, c, rfl⟩
      · exact .inl (by simpa using hl)
      · right
        rw [← List.append_assoc, List.getLast?_concat]
        rwa [List.getLast?_concat] at hbegins

theorem HeadIn.of_resume {first : Nat} (h : HeadIn masked start stop front head rest)
    (hle : first ≤ start) (hresume : start = first ∨ IsResume masked stop start) :
    HeadIn masked first stop front head rest := by
  refine ⟨h.eq, hle.trans h.start_le, h.lt_stop, ?_⟩
  rcases hresume with rfl | hresume
  · exact h.begins
  · rcases h.begins with hbegins | hbegins
    · -- the head stands right behind a break
      have hlt : start < stop := by
        have := h.lt_stop
        rw [byteLength_append] at this
        omega
      obtain ⟨n, c, rfl, ⟨x, y, heq, hx⟩, hc⟩ := hresume.resolve_left (by omega)
      have hcut : (x ++ [c]) ++ y = front ++ (head.text ++ '(' :: rest) := by
        rw [← h.eq, heq]
        simp
      have hfront := (append_inj_of_byteLength hcut (by
        rw [byteLength_append, hx, hbegins]
        simp [utf8Size_of_isBreak hc])).1
      right
      rw [← hfront, List.getLast?_concat]
      rcases isBreak_cases hc with rfl | rfl | rfl <;> decide
    · exact .inr hbegins

end

section

variable {masked : List Char} {stop : Nat} {spans : List FunctionSpan}

theorem headIn_of_occurrence {start : Nat} (hstart : isBoundary masked start = true)
    (hstop : isBoundary masked stop = true) (hle : start ≤ stop) {o : Occurrence}
    (ho : o ∈ occurrencesFrom functionHeader? none start 0
      (takeBytes (stop - start) (dropBytes start masked))) :
    ∃ front head rest, HeadIn masked start stop front head rest ∧
      head.span front = ⟨String.ofList o.name, o.stop - 1⟩ := by
  obtain ⟨l, w, r, rfl, hl, hw⟩ := exists_parts_of_isBoundary hstart hstop hle
  rw [takeBytes_dropBytes hl hw] at ho
  obtain ⟨u, v, f, rfl, -, hf, hend, hname⟩ := IsHeader.ofFunction.start_mem ho
  obtain ⟨hbegins, head, hhead, rfl⟩ := functionHeader?_eq_some_iff.mp hf
  refine ⟨l ++ u, head, f.rest ++ r, (headIn_iff hl hw).mpr ⟨u, f.rest, rfl, rfl, rfl, hbegins⟩, ?_⟩
  have hone : '('.utf8Size = 1 := by decide
  simp only [FunctionHead.span, hhead, hname, FunctionSpan.mk.injEq, true_and]
  simp only [byteLength_append, byteLength_cons, hone] at hend ⊢
  omega

theorem hasAt_of_headIn {start : Nat} {front rest : List Char} {head : FunctionHead}
    (h : HeadIn masked start stop front head rest) :
    HasAt masked (head.span front).paramsOpen '(' :=
  ⟨front ++ head.text, rest, by rw [h.eq, List.append_assoc], rfl⟩

/-- Every function that a search finds has a head behind the place where the search began. -/
theorem exists_headIn_of_mem {first : Nat} (hstop : isBoundary masked stop = true)
    {steps start : Nat} (hle : first ≤ start) (hcut : start < stop → isBoundary masked start = true)
    (hresume : start = first ∨ IsResume masked stop start)
    (h : functionSpansFrom masked stop steps start = .ok spans) {f : FunctionSpan}
    (hf : f ∈ spans) :
    ∃ front head rest, HeadIn masked first stop front head rest ∧ head.span front = f := by
  induction steps generalizing start spans with
  | zero =>
    cases h
    cases hf
  | succ steps ih =>
    obtain ⟨hlt, o, ho, hfound⟩ := mem_functionSpansFrom_cases h hf
    obtain ⟨front, head, rest, hhead, hspan⟩ := headIn_of_occurrence (hcut hlt) hstop hlt.le ho
    rcases hfound with ⟨rfl, -⟩ | ⟨close, later, hclose, hinside, hlater, hf⟩
    · exact ⟨front, head, rest, hhead.of_resume hle hresume, hspan⟩
    · have hopen : HasAt masked (o.stop - 1) '(' := by
        have := hasAt_of_headIn hhead
        rwa [hspan] at this
      obtain ⟨hparen, hbehind⟩ := hasAt_of_findClosing hopen rfl hclose
      have hnext := isResume_afterFunction hstop hparen.isBoundary hinside
      have hafter : close ≤ afterFunction masked stop close := le_afterFunction hinside
      have hbounds := IsHeader.ofFunction.bounds ho
      refine ih (by omega) ?_ (.inr hnext) hlater hf
      intro hlt
      obtain ⟨n, c, heq, hn, hc⟩ := hnext.resolve_left (by omega)
      rw [heq]
      exact hn.isBoundary_succ (utf8Size_of_isBreak hc)

theorem head?_functionSpansFrom {steps start : Nat} (hlt : start < stop) {o : Occurrence}
    (ho : firstOccurrence? functionHeader? none start
      (takeBytes (stop - start) (dropBytes start masked)) = some o)
    (h : functionSpansFrom masked stop (steps + 1) start = .ok spans) :
    spans.head? = some ⟨String.ofList o.name, o.stop - 1⟩ := by
  rw [functionSpansFrom_of_some hlt ho] at h
  split at h
  · cases h
    rfl
  · split at h
    · cases h
    · cases hlater : functionSpansFrom masked stop steps _ with
      | error e =>
        rw [hlater] at h
        cases h
      | ok later =>
        rw [hlater] at h
        cases h
        rfl

theorem head?_functionSpans {start : Nat} (hstart : isBoundary masked start = true)
    (hstop : isBoundary masked stop = true) (h : functionSpans masked start stop = .ok spans)
    {front rest : List Char} {head : FunctionHead}
    (hhead : HeadIn masked start stop front head rest)
    (hfirst : ∀ front' head' rest', HeadIn masked start stop front' head' rest' →
      byteLength front ≤ byteLength front') : spans.head? = some (head.span front) := by
  have hlt : start < stop := by
    have hstart := hhead.start_le
    have hstop := hhead.lt_stop
    rw [byteLength_append] at hstop
    omega
  obtain ⟨steps, hsteps⟩ : ∃ steps, stop - start = steps + 1 := ⟨stop - start - 1, by omega⟩
  rw [functionSpans, hsteps] at h
  obtain ⟨l, w, r, rfl, hl, hw⟩ := exists_parts_of_isBoundary hstart hstop hlt.le
  obtain ⟨u, f, rfl, rfl, rfl, hbegins⟩ := (headIn_iff hl hw).mp hhead
  have hmatch : functionHeader? (lastOf none u) (head.text ++ '(' :: f) = some ⟨head.name, f⟩ :=
    functionHeader?_eq_some_iff.mpr ⟨hbegins, head, rfl, rfl⟩
  cases ho : firstOccurrence? functionHeader? none start
      (takeBytes (stop - start) (dropBytes start (l ++ (u ++ (head.text ++ '(' :: f) ++ r)))) with
  | none =>
    rw [takeBytes_dropBytes hl hw] at ho
    have hsilent := silent_of_firstOccurrence?_eq_none ho u _ rfl (by simp)
    rw [List.append_nil, hmatch] at hsilent
    cases hsilent
  | some o =>
    rw [head?_functionSpansFrom hlt ho h]
    rw [takeBytes_dropBytes hl hw] at ho
    obtain ⟨u', v', f', hcut, hsilent, hf', hend, hname⟩ :=
      IsHeader.ofFunction.silent_of_firstOccurrence? ho
    obtain ⟨hbegins', head', hhead', rfl⟩ := functionHeader?_eq_some_iff.mp hf'
    -- neither of the two heads stands in front of the other
    have hle := hfirst (l ++ u') head' (f'.rest ++ r)
      ((headIn_iff hl hw).mpr ⟨u', f'.rest, rfl, hcut, rfl, hbegins'⟩)
    rw [byteLength_append, byteLength_append, Nat.add_le_add_iff_left] at hle
    obtain ⟨x, rfl, hx⟩ := exists_append_of_byteLength_le hcut hle
    cases x with
    | cons c x =>
      have hnone := hsilent u (c :: x) rfl (by simp)
      rw [← hx, hmatch] at hnone
      cases hnone
    | nil =>
      rw [List.append_nil, ← List.nil_append (head'.text ++ _), ← hx, hmatch] at hf'
      cases hf'
      have hone : '('.utf8Size = 1 := by decide
      simp only [FunctionHead.span, hname, Option.some.injEq, FunctionSpan.mk.injEq, true_and]
      simp only [byteLength_append, byteLength_cons, hone] at hend ⊢
      omega

/-- Whether the functions that are found in a range are declared there: the name of each stands
apart from the keyword exactly if there is a gap between them, and the first head of the range is
found in any case. -/
theorem name_apart_iff {start : Nat} (hstart : isBoundary masked start = true)
    (hstop : isBoundary masked stop = true) (h : functionSpans masked start stop = .ok spans) :
    (∀ f ∈ spans, ∃ front head rest, HeadIn masked start stop front head rest ∧
      head.span front = f ∧
      (head.standsApart front = true ↔ head.gap ≠ [])) ∧
    ∀ front head rest, HeadIn masked start stop front head rest →
      (∀ front' head' rest', HeadIn masked start stop front' head' rest' →
        byteLength front ≤ byteLength front') → spans.head? = some (head.span front) := by
  constructor
  · intro f hf
    obtain ⟨front, head, rest, hhead, hspan⟩ :=
      exists_headIn_of_mem hstop le_rfl (fun _ => hstart) (.inl rfl) h hf
    exact ⟨front, head, rest, hhead, hspan, head.standsApart_iff front⟩
  · intro front head rest hhead hfirst
    exact head?_functionSpans hstart hstop h hhead hfirst

end

theorem name_apart_iff_call :
    functionSpans "functionA(); function b();".toList 0 26 = .ok [⟨"A", 9⟩, ⟨"b", 23⟩] ∧
      (∃ front head rest, HeadIn "functionA(); function b();".toList 0 26 front head rest ∧
        head.span front = ⟨"b", 23⟩ ∧ (head.standsApart front = true ↔ head.gap ≠ [])) ∧
      [(⟨"A", 9⟩ : FunctionSpan), ⟨"b", 23⟩].head? =
        some (FunctionHead.span ⟨"function".toList, [], ['A'], [], by decide,
          ⟨[], [], [], by simp⟩, by decide, by decide, by simp⟩ []) := by
  have hspans : functionSpans "functionA(); function b();".toList 0 26 =
      .ok [⟨"A", 9⟩, ⟨"b", 23⟩] := by decide +kernel
  obtain ⟨hheads, hfirst⟩ := name_apart_iff (by decide) (by decide) hspans
  refine ⟨hspans, hheads _ (by simp), hfirst [] _ "); function b();".toList ?_ ?_⟩
  · exact ⟨by decide, by decide, by decide, by decide⟩
  · intro front' head' rest' _
    exact Nat.zero_le _

/-- The call in a guard is taken for a function whose name is the rest of the called one, and the
function that is declared under the guard is not found. -/
theorem call_taken_for_function :
    freeFunctions "if (!function_exists(1)) \x7b function f() \x7b\x7d \x7d".toList [] =
        .ok [("", ⟨"_exists", 20⟩)] ∧
      slice? "if (!function_exists(1)) \x7b function f() \x7b\x7d \x7d".toList 12 20 =
        some "n_exists".toList ∧ isBlank 'n' = false := by
  decide +kernel

end SignatureInference.Source
