import SignatureInference.Proofs.Text.Offsets
import SignatureInference.Proofs.Text.Reading
import SignatureInference.Source.Header

/-! # What the patterns for headers read

The three patterns have one shape: a keyword at the beginning of a word, and a reader for what
follows it. None of them reads past a comma or a parenthesis, except that the head of a function
ends with one, and none begins at a character other than the first letter of a keyword.
-/
namespace SignatureInference.Source

open Text

def namespaceTail? (cs : List Char) : Option Found := do
  let cs ← dropBlanks? cs
  let isPart := fun c => isIdentPart c || c == '\\'
  match cs with
  | [] => none
  | c :: _ =>
    if !isIdentStart c then none
    else
      match trimStart (cs.dropWhile isPart) with
      | [] => none
      | d :: rest => if d = ';' || d = '\x7b' then some ⟨cs.takeWhile isPart, rest⟩ else none

def classTail? (cs : List Char) : Option Found := do
  let cs ← dropBlanks? cs
  let (name, rest) ← takeName? cs
  return ⟨name, rest⟩

def functionTail? (cs : List Char) : Option Found := do
  let cs := trimStart cs
  let cs := (dropHead? ['&'] cs).getD cs
  let (name, cs) ← takeName? (trimStart cs)
  let rest ← dropHead? ['('] (trimStart cs)
  return ⟨name, rest⟩

/-- A keyword at the beginning of a word, and what follows it. -/
def headed (word : List Char → Option (List Char)) (tail : List Char → Option Found)
    (previous : Option Char) (cs : List Char) : Option Found :=
  if wordMayBegin previous then (word cs).bind tail else none

theorem namespaceHeader?_eq :
    namespaceHeader? = headed (dropHead? "namespace".toList) namespaceTail? := by
  funext previous cs
  unfold namespaceHeader? headed
  cases wordMayBegin previous <;> rfl

theorem classHeader?_eq :
    classHeader? = headed (fun cs => classWords.findSome? (dropWord? · cs)) classTail? := by
  funext previous cs
  unfold classHeader? headed
  cases wordMayBegin previous <;> rfl

theorem functionHeader?_eq :
    functionHeader? = headed (dropWord? "function".toList) functionTail? := by
  funext previous cs
  unfold functionHeader? headed
  cases wordMayBegin previous <;> rfl

inductive IsHeader : (Option Char → List Char → Option Found) → Prop
  | ofNamespace : IsHeader namespaceHeader?
  | ofClass : IsHeader classHeader?
  | ofFunction : IsHeader functionHeader?

/-! ## Stops -/

def isStop (s : Char) : Bool := s == ',' || s == '(' || s == ')'

/-- The same finding in a text that goes on. -/
def Found.before (z : List Char) (f : Found) : Found := ⟨f.name, f.rest ++ z⟩

theorem Found.before_before (y z : List Char) (f : Found) :
    (f.before y).before z = f.before (y ++ z) := by
  simp [Found.before]

section

variable {s : Char}

theorem isStop_cases (hs : isStop s = true) : s = ',' ∨ s = '(' ∨ s = ')' := by
  simpa [isStop, or_assoc] using hs

theorem isBlank_of_isStop (hs : isStop s = true) : isBlank s = false := by
  rcases isStop_cases hs with rfl | rfl | rfl <;> decide

theorem isNamePart_of_isStop (hs : isStop s = true) :
    isNamePart s = false ∧ isNameStart s = false := by
  rcases isStop_cases hs with rfl | rfl | rfl <;> decide

theorem isNamePart_of_isBlank {c : Char} (h : isBlank c = true) : isNamePart c = false := by
  by_contra hpart
  simp only [isNamePart, Bool.not_eq_false, Bool.or_eq_true, beq_iff_eq] at hpart
  rcases hpart with (hpart | hpart) | hpart
  · rw [isBlank_of_isIdentPart hpart] at h
    cases h
  · simp [isBlank, hpart] at h
  · simp [isBlank, hpart] at h

theorem takeName?_stop (hs : isStop s = true) (u z : List Char) :
    takeName? (u ++ s :: z) = (takeName? u).map fun p => (p.1, p.2 ++ s :: z) := by
  obtain ⟨hpart, hstart⟩ := isNamePart_of_isStop hs
  cases u with
  | nil => simp [takeName?, hstart]
  | cons c cs =>
    have htake := takeWhile_stop hpart (c :: cs) z
    have hdrop := dropWhile_stop hpart (c :: cs) z
    rw [List.cons_append] at htake hdrop
    simp only [List.cons_append, takeName?, htake, hdrop]
    split <;> rfl

theorem namespaceTail?_stop (hs : isStop s = true) (u z : List Char) :
    namespaceTail? (u ++ s :: z) = (namespaceTail? u).map (Found.before (s :: z)) := by
  have hpart : (isIdentPart s || s == '\\') = false ∧ isIdentStart s = false := by
    rcases isStop_cases hs with rfl | rfl | rfl <;> decide
  have hend : (decide (s = ';') || decide (s = '\x7b')) = false := by
    rcases isStop_cases hs with rfl | rfl | rfl <;> decide
  unfold namespaceTail?
  rw [dropBlanks?_stop (isBlank_of_isStop hs)]
  cases hu : dropBlanks? u with
  | none => rfl
  | some v =>
    simp only [Option.map_some, Option.bind_eq_bind, Option.bind_some]
    cases v with
    | nil => simp [hpart.2]
    | cons c cs =>
      have htake := takeWhile_stop (p := fun c => isIdentPart c || c == '\\') hpart.1 (c :: cs) z
      have hdrop := dropWhile_stop (p := fun c => isIdentPart c || c == '\\') hpart.1 (c :: cs) z
      rw [List.cons_append] at htake hdrop
      simp only [List.cons_append, htake, hdrop, trimStart_stop (isBlank_of_isStop hs)]
      split
      · rfl
      · cases trimStart ((c :: cs).dropWhile fun c => isIdentPart c || c == '\\') with
        | nil => simp [hend]
        | cons d ds =>
          simp only [List.cons_append]
          split <;> rfl

theorem classTail?_stop (hs : isStop s = true) (u z : List Char) :
    classTail? (u ++ s :: z) = (classTail? u).map (Found.before (s :: z)) := by
  unfold classTail?
  rw [dropBlanks?_stop (isBlank_of_isStop hs)]
  cases hu : dropBlanks? u with
  | none => rfl
  | some v =>
    simp only [Option.map_some, Option.bind_eq_bind, Option.bind_some, takeName?_stop hs]
    cases takeName? v <;> rfl

theorem functionTail?_stop (hs : isStop s = true) (u z : List Char) :
    functionTail? (u ++ s :: z) = (functionTail? (u ++ [s])).map (Found.before z) := by
  have hblank := isBlank_of_isStop hs
  have hamp : s ∉ ['&'] := by
    rcases isStop_cases hs with rfl | rfl | rfl <;> decide
  have hpast : ∀ v z : List Char, (dropHead? ['&'] (v ++ s :: z)).getD (v ++ s :: z) =
      (dropHead? ['&'] v).getD v ++ s :: z := by
    intro v z
    rw [dropHead?_stop hamp]
    cases dropHead? ['&'] v <;> rfl
  unfold functionTail?
  simp only [trimStart_stop hblank, hpast, takeName?_stop hs]
  cases takeName? (trimStart ((dropHead? ['&'] (trimStart u)).getD (trimStart u))) with
  | none => rfl
  | some p =>
    have hz := dropHead?_singleton_append '(' (v := trimStart p.2 ++ [s]) (by simp) z
    rw [List.append_assoc, List.singleton_append] at hz
    simp only [Option.map_some, Option.bind_eq_bind, Option.bind_some, trimStart_stop hblank, hz]
    cases dropHead? ['('] (trimStart p.2 ++ [s]) <;> rfl

theorem headed_stop {word : List Char → Option (List Char)} {tail : List Char → Option Found}
    (hword : ∀ u z, word (u ++ s :: z) = (word u).map (· ++ s :: z))
    (htail : ∀ u z, tail (u ++ s :: z) = (tail (u ++ [s])).map (Found.before z))
    (previous : Option Char) (u z : List Char) :
    headed word tail previous (u ++ s :: z) =
      (headed word tail previous (u ++ [s])).map (Found.before z) := by
  unfold headed
  cases wordMayBegin previous with
  | false => rfl
  | true =>
    rw [if_pos rfl, if_pos rfl, hword u z, hword u []]
    cases word u with
    | none => rfl
    | some v => exact htail v z

theorem IsHeader.stop {pattern : Option Char → List Char → Option Found} (h : IsHeader pattern)
    (hs : isStop s = true) (previous : Option Char) (u z : List Char) :
    pattern previous (u ++ s :: z) = (pattern previous (u ++ [s])).map (Found.before z) := by
  have past {tail : List Char → Option Found}
      (ht : ∀ u z, tail (u ++ s :: z) = (tail u).map (Found.before (s :: z))) (u z : List Char) :
      tail (u ++ s :: z) = (tail (u ++ [s])).map (Found.before z) := by
    rw [ht u z, ht u []]
    cases tail u with
    | none => rfl
    | some f => simp [Found.before_before]
  cases h with
  | ofNamespace =>
    rw [namespaceHeader?_eq]
    refine headed_stop (dropHead?_stop ?_) (past (namespaceTail?_stop hs)) previous u z
    rcases isStop_cases hs with rfl | rfl | rfl <;> decide
  | ofClass =>
    rw [classHeader?_eq]
    refine headed_stop (fun u z => ?_) (past (classTail?_stop hs)) previous u z
    have hword : ∀ w ∈ classWords, dropWord? w (u ++ s :: z) =
        (dropWord? w u).map (· ++ s :: z) := by
      intro w hw
      refine dropWord?_stop ?_ u z
      revert w
      rcases isStop_cases hs with rfl | rfl | rfl <;> decide
    generalize classWords = ws at hword
    induction ws with
    | nil => rfl
    | cons w ws ih =>
      rw [List.findSome?_cons, List.findSome?_cons, hword w List.mem_cons_self,
        ih fun w hw => hword w (List.mem_cons_of_mem _ hw)]
      cases dropWord? w u <;> rfl
  | ofFunction =>
    rw [functionHeader?_eq]
    refine headed_stop (dropWord?_stop ?_) (functionTail?_stop hs) previous u z
    rcases isStop_cases hs with rfl | rfl | rfl <;> decide

end

/-! ## Where headers begin and end -/

def beginsKeyword (c : Char) : Bool := "citefn".toList.contains (foldLetter c)

theorem foldLetter_of_isBlank {c : Char} (h : isBlank c = true) : foldLetter c = c := by
  have hn : c.toNat ≠ 0x17F ∧ c.toNat ≠ 0x212A ∧ ¬ (65 ≤ c.toNat ∧ c.toNat ≤ 90) := by
    simp only [isBlank, Bool.or_eq_true, Bool.and_eq_true, decide_eq_true_eq, beq_iff_eq] at h
    omega
  have hupper : c.isUpper = false := by
    rw [Bool.eq_false_iff, ne_eq, isUpper_iff]
    exact hn.2.2
  rw [foldLetter, if_neg hn.1, if_neg hn.2.1, toLower_of_not_isUpper hupper]

theorem foldLetter_not_mem_of_isBlank {c : Char} (h : isBlank c = true) {w : List Char}
    (hw : ∀ d ∈ w, isBlank d = false) : foldLetter c ∉ w := by
  rw [foldLetter_of_isBlank h]
  intro hc
  rw [hw c hc] at h
  cases h

theorem beginsKeyword_of_isBlank {c : Char} (h : isBlank c = true) : beginsKeyword c = false := by
  rw [beginsKeyword, ← Bool.not_eq_true, List.contains_iff_mem]
  have hletters : ("citefn".toList.all fun d => !isBlank d) = true := by decide
  exact foldLetter_not_mem_of_isBlank h fun d hd => by simpa using List.all_eq_true.mp hletters d hd

theorem headed_begins {word : List Char → Option (List Char)} {tail : List Char → Option Found}
    {previous : Option Char} {c : Char} {cs : List Char} {f : Found}
    (hword : ∀ r, word (c :: cs) = some r → beginsKeyword c = true)
    (h : headed word tail previous (c :: cs) = some f) :
    wordMayBegin previous = true ∧ beginsKeyword c = true := by
  unfold headed at h
  split at h
  · next hp =>
    obtain ⟨r, hr, -⟩ := Option.bind_eq_some_iff.mp h
    exact ⟨hp, hword r hr⟩
  · cases h

theorem dropWord?_begins {w cs r : List Char} {c d : Char} (hd : "citefn".toList.contains d = true)
    (h : dropWord? (d :: w) (c :: cs) = some r) : beginsKeyword c = true := by
  rw [dropWord?] at h
  split at h
  · next he =>
    subst he
    exact hd
  · cases h

section

variable {pattern : Option Char → List Char → Option Found}

theorem IsHeader.begins (h : IsHeader pattern) {previous : Option Char} {c : Char} {cs : List Char}
    {f : Found} (hf : pattern previous (c :: cs) = some f) :
    wordMayBegin previous = true ∧ beginsKeyword c = true := by
  cases h with
  | ofNamespace =>
    rw [namespaceHeader?_eq] at hf
    refine headed_begins (fun r hr => ?_) hf
    have he := eq_append_of_dropHead? hr
    have hc : c = 'n' := (List.cons.inj he).1
    subst hc
    decide
  | ofClass =>
    rw [classHeader?_eq] at hf
    refine headed_begins (fun r hr => ?_) hf
    obtain ⟨w, hw, hr⟩ := List.exists_of_findSome?_eq_some hr
    have hw : w = "class".toList ∨ w = "interface".toList ∨ w = "trait".toList ∨
        w = "enum".toList := by
      simpa [classWords] using hw
    rcases hw with rfl | rfl | rfl | rfl
    · exact dropWord?_begins (by decide) hr
    · exact dropWord?_begins (by decide) hr
    · exact dropWord?_begins (by decide) hr
    · exact dropWord?_begins (by decide) hr
  | ofFunction =>
    rw [functionHeader?_eq] at hf
    exact headed_begins (fun r hr => dropWord?_begins (by decide) hr) hf

theorem IsHeader.eq_none (h : IsHeader pattern) (previous : Option Char) {c : Char}
    (hc : beginsKeyword c = false) (cs : List Char) : pattern previous (c :: cs) = none := by
  by_contra hne
  obtain ⟨f, hf⟩ := Option.ne_none_iff_exists'.mp hne
  rw [(h.begins hf).2] at hc
  cases hc

theorem IsHeader.eq_none_of_wordChar (h : IsHeader pattern) {d : Char} (hd : isWordChar d = true)
    (c : Char) (cs : List Char) : pattern (some d) (c :: cs) = none := by
  by_contra hne
  obtain ⟨f, hf⟩ := Option.ne_none_iff_exists'.mp hne
  have := (h.begins hf).1
  simp [wordMayBegin, hd] at this

end

theorem isNamePart_of_isNameStart {c : Char} (h : isNameStart c = true) : isNamePart c = true := by
  simp only [isNameStart, isNamePart, isIdentStart, isIdentPart, Char.isAlphanum,
    Bool.or_eq_true] at h ⊢
  tauto

theorem takeName?_eq_some_iff {cs name rest : List Char} :
    takeName? cs = some (name, rest) ↔
      cs = name ++ rest ∧ name.head?.any isNameStart = true ∧ (∀ c ∈ name, isNamePart c = true) ∧
        rest.head?.any isNamePart = false := by
  constructor
  · intro h
    unfold takeName? at h
    split at h
    · cases h
    · next c cs =>
      split at h
      · next hstart =>
        cases h
        refine ⟨List.takeWhile_append_dropWhile.symm, ?_, fun d hd => List.mem_takeWhile_imp hd, ?_⟩
        · simp [isNamePart_of_isNameStart hstart, hstart]
        · have := List.head?_dropWhile_not isNamePart (c :: cs)
          cases hrest : ((c :: cs).dropWhile isNamePart).head? with
          | none => rfl
          | some d => simpa [hrest] using this
      · cases h
  · rintro ⟨rfl, hstart, hpart, hrest⟩
    cases name with
    | nil => cases hstart
    | cons c name =>
      have htake : (c :: name ++ rest).takeWhile isNamePart = c :: name := by
        rw [List.takeWhile_append_of_pos hpart]
        cases rest with
        | nil => simp
        | cons d rest => simpa using hrest
      have hdrop : (c :: name ++ rest).dropWhile isNamePart = rest := by
        rw [List.dropWhile_append_of_pos hpart]
        cases rest with
        | nil => rfl
        | cons d rest => exact List.dropWhile_cons_of_neg (by simpa using hrest)
      have hc : isNameStart c = true := hstart
      rw [List.cons_append] at htake hdrop ⊢
      rw [takeName?, if_pos hc, htake, hdrop]

theorem takeName?_eq_some {cs : List Char} {p : List Char × List Char} (h : takeName? cs = some p) :
    p.2 <:+ cs :=
  ⟨p.1, (takeName?_eq_some_iff.mp h).1.symm⟩

theorem functionTail?_suffix {cs : List Char} {f : Found} (h : functionTail? cs = some f) :
    '(' :: f.rest <:+ cs := by
  unfold functionTail? at h
  obtain ⟨p, hname, h⟩ := Option.bind_eq_some_iff.mp h
  obtain ⟨rest, hrest, h⟩ := Option.bind_eq_some_iff.mp h
  cases h
  have hamp : (dropHead? ['&'] (trimStart cs)).getD (trimStart cs) <:+ trimStart cs := by
    cases hd : dropHead? ['&'] (trimStart cs) with
    | none => exact List.suffix_rfl
    | some v => exact ⟨['&'], (eq_append_of_dropHead? hd).symm⟩
  have hopen : trimStart p.2 = '(' :: rest := eq_append_of_dropHead? hrest
  calc '(' :: rest <:+ p.2 := hopen ▸ List.dropWhile_suffix _
    _ <:+ trimStart ((dropHead? ['&'] (trimStart cs)).getD (trimStart cs)) :=
      takeName?_eq_some hname
    _ <:+ (dropHead? ['&'] (trimStart cs)).getD (trimStart cs) := List.dropWhile_suffix _
    _ <:+ trimStart cs := hamp
    _ <:+ cs := List.dropWhile_suffix _

theorem classTail?_suffix {cs : List Char} {f : Found} (h : classTail? cs = some f) :
    f.rest <:+ cs := by
  unfold classTail? at h
  obtain ⟨v, hv, h⟩ := Option.bind_eq_some_iff.mp h
  obtain ⟨p, hp, h⟩ := Option.bind_eq_some_iff.mp h
  cases h
  rw [exists_append_of_dropBlanks? hv] at hp
  exact (takeName?_eq_some hp).trans (List.dropWhile_suffix _)

theorem namespaceTail?_suffix {cs : List Char} {f : Found} (h : namespaceTail? cs = some f) :
    f.rest <:+ cs := by
  unfold namespaceTail? at h
  obtain ⟨v, hv, h⟩ := Option.bind_eq_some_iff.mp h
  have hvs : v <:+ cs := exists_append_of_dropBlanks? hv ▸ List.dropWhile_suffix _
  simp only at h
  split at h
  · cases h
  · split at h
    · cases h
    · split at h
      · cases h
      · next d rest hd =>
        split at h
        · cases h
          refine ((List.suffix_cons d rest).trans ?_).trans hvs
          rw [← hd]
          exact (List.dropWhile_suffix _).trans (List.dropWhile_suffix _)
        · cases h

theorem headed_suffix {word : List Char → Option (List Char)} {tail : List Char → Option Found}
    {previous : Option Char} {cs : List Char} {f : Found}
    (hword : ∀ r, word cs = some r → r <:+ cs ∧ r.length < cs.length)
    (htail : ∀ r, tail r = some f → f.rest <:+ r) (h : headed word tail previous cs = some f) :
    f.rest <:+ cs ∧ f.rest.length < cs.length := by
  unfold headed at h
  split at h
  · obtain ⟨r, hr, hf⟩ := Option.bind_eq_some_iff.mp h
    obtain ⟨hs, hlt⟩ := hword r hr
    exact ⟨(htail r hf).trans hs, lt_of_le_of_lt (htail r hf).length_le hlt⟩
  · cases h

theorem dropWord?_suffix {w cs r : List Char} (hw : w ≠ []) (h : dropWord? w cs = some r) :
    r <:+ cs ∧ r.length < cs.length := by
  obtain ⟨v, rfl, rfl⟩ := exists_append_of_dropWord? h
  refine ⟨List.suffix_append v r, ?_⟩
  have : 0 < v.length := List.length_pos_iff.mpr (by simpa using hw)
  rw [List.length_append]
  omega

theorem IsHeader.suffix {pattern : Option Char → List Char → Option Found} (h : IsHeader pattern)
    {previous : Option Char} {cs : List Char} {f : Found} (hf : pattern previous cs = some f) :
    f.rest <:+ cs ∧ f.rest.length < cs.length := by
  cases h with
  | ofNamespace =>
    rw [namespaceHeader?_eq] at hf
    refine headed_suffix (fun r hr => ?_) (fun r hr => namespaceTail?_suffix hr) hf
    have he := eq_append_of_dropHead? hr
    exact ⟨⟨_, he.symm⟩, by rw [he, List.length_append]; exact Nat.lt_add_of_pos_left (by decide)⟩
  | ofClass =>
    rw [classHeader?_eq] at hf
    refine headed_suffix (fun r hr => ?_) (fun r hr => classTail?_suffix hr) hf
    obtain ⟨w, hw, hr⟩ := List.exists_of_findSome?_eq_some hr
    refine dropWord?_suffix ?_ hr
    rintro rfl
    exact absurd hw (by decide)
  | ofFunction =>
    rw [functionHeader?_eq] at hf
    refine headed_suffix (fun r hr => dropWord?_suffix (by decide) hr) (fun r hr => ?_) hf
    exact (List.suffix_cons _ _).trans (functionTail?_suffix hr)

theorem functionHeader?_suffix {previous : Option Char} {cs : List Char} {f : Found}
    (h : functionHeader? previous cs = some f) : '(' :: f.rest <:+ cs := by
  rw [functionHeader?_eq] at h
  unfold headed at h
  split at h
  · obtain ⟨r, hr, hf⟩ := Option.bind_eq_some_iff.mp h
    exact (functionTail?_suffix hf).trans (dropWord?_suffix (by decide) hr).1
  · cases h

theorem functionHeader?_previous {previous : Option Char} {cs : List Char}
    (h : functionHeader? none cs = none) : functionHeader? previous cs = none := by
  rw [functionHeader?_eq, headed] at h ⊢
  split
  · exact h
  · rfl

theorem functionHeader?_take {previous : Option Char} {x y : List Char}
    (h : functionHeader? previous (x ++ y) = none) : functionHeader? previous x = none := by
  by_contra hx
  obtain ⟨f, hf⟩ := Option.ne_none_iff_exists'.mp hx
  -- the head ends with a parenthesis, and what follows it does not matter
  obtain ⟨a, rfl⟩ := functionHeader?_suffix hf
  rw [List.append_assoc, List.cons_append, IsHeader.ofFunction.stop (by decide)] at h
  rw [IsHeader.ofFunction.stop (by decide), Option.map_eq_none_iff.mp h] at hf
  cases hf

end SignatureInference.Source
