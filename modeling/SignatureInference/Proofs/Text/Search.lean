import SignatureInference.Proofs.Text.Reading
import SignatureInference.Text.Search

/-! # Words found in a text

A search from the front fails only where the word does not occur, and finds its first occurrence. A
word whose first character does not come again in it cannot overlap another occurrence of itself.
From the end, such a word is found where it does not occur any further on. A pattern is found
wherever it reads something, apart from what was read before.
-/
namespace SignatureInference.Text

variable {word cs u v : List Char}

theorem dropHead?_eq_none_iff : dropHead? word cs = none ↔ ¬word <+: cs := by
  constructor
  · rintro h ⟨rest, rfl⟩
    rw [dropHead?_append] at h
    cases h
  · intro h
    cases hd : dropHead? word cs with
    | none => rfl
    | some rest => exact absurd ⟨rest, (eq_append_of_dropHead? hd).symm⟩ h

theorem any_dropHead?_iff {p : List Char → Bool} :
    (dropHead? word cs).any p = true ↔ ∃ rest, cs = word ++ rest ∧ p rest = true := by
  constructor
  · intro h
    cases hd : dropHead? word cs with
    | none =>
      rw [hd] at h
      cases h
    | some rest =>
      rw [hd] at h
      exact ⟨rest, eq_append_of_dropHead? hd, h⟩
  · rintro ⟨rest, rfl, hp⟩
    rw [dropHead?_append, Option.any_some, hp]

theorem breakOn?_eq_none_iff : breakOn? word cs = none ↔ ¬word <:+: cs := by
  induction cs with
  | nil => by_cases h : word = [] <;> simp [breakOn?, h]
  | cons c cs ih =>
    rw [breakOn?, List.infix_cons_iff]
    cases hd : dropHead? word (c :: cs) with
    | some rest =>
      have hbegins : word <+: c :: cs := ⟨rest, (eq_append_of_dropHead? hd).symm⟩
      simp [hbegins]
    | none => simp [dropHead?_eq_none_iff.mp hd, ih]

theorem contains_iff : contains word cs = true ↔ word <:+: cs := by
  rw [contains, Option.isSome_iff_ne_none, Ne, breakOn?_eq_none_iff, not_not]

theorem startsWith_iff : startsWith word cs = true ↔ word <+: cs := by
  rw [startsWith, Option.isSome_iff_ne_none, Ne, dropHead?_eq_none_iff, not_not]

theorem breakOn?_append_self (hword : word ≠ []) (v : List Char) :
    breakOn? word (word ++ v) = some ([], v) := by
  cases word with
  | nil => exact absurd rfl hword
  | cons c word =>
    have hdrop : dropHead? (c :: word) (c :: (word ++ v)) = some v := dropHead?_append (c :: word) v
    rw [List.cons_append, breakOn?, hdrop]

theorem breakOn?_cons_of_none {c : Char} (h : dropHead? word (c :: cs) = none) :
    breakOn? word (c :: cs) = (breakOn? word cs).map fun p => (c :: p.1, p.2) := by
  rw [breakOn?, h]

theorem breakOn?_append_of_not_mem {c : Char} (hu : c ∉ u) :
    breakOn? (c :: word) (u ++ v) = (breakOn? (c :: word) v).map fun p => (u ++ p.1, p.2) := by
  induction u with
  | nil => simp
  | cons d u ih =>
    rw [List.mem_cons, not_or] at hu
    rw [List.cons_append, breakOn?_cons_of_none (by rw [dropHead?, if_neg hu.1]), ih hu.2,
      Option.map_map]
    rfl

theorem first_of_breakOn? (h : breakOn? word cs = some (u, v)) :
    cs = u ++ (word ++ v) ∧ ∀ x y, cs = x ++ (word ++ y) → u.length ≤ x.length := by
  induction cs generalizing u with
  | nil =>
    unfold breakOn? at h
    split at h
    · next hword =>
      cases h
      simp [hword]
    · cases h
  | cons c cs ih =>
    rw [breakOn?] at h
    cases hd : dropHead? word (c :: cs) with
    | some rest =>
      rw [hd] at h
      cases h
      exact ⟨by simpa using eq_append_of_dropHead? hd, fun x y _ => Nat.zero_le x.length⟩
    | none =>
      rw [hd] at h
      obtain ⟨⟨u', v'⟩, hbreak, heq⟩ := Option.map_eq_some_iff.mp h
      cases heq
      obtain ⟨hcs, hfirst⟩ := ih hbreak
      refine ⟨congrArg (c :: ·) hcs, ?_⟩
      intro x y hxy
      cases x with
      | nil => exact absurd ⟨y, hxy.symm⟩ (dropHead?_eq_none_iff.mp hd)
      | cons d x => simpa using hfirst x y (List.cons.inj hxy).2

theorem breakOnLast?_eq_none_iff : breakOnLast? word cs = none ↔ ¬word <:+: cs := by
  rw [breakOnLast?, Option.map_eq_none_iff, breakOn?_eq_none_iff, List.reverse_infix]

/-- A text is cut in one way at the last place where a word occurs that does not overlap itself. -/
theorem last_occurrence_unique {c : Char} {t u' v' : List Char} (hc : c ∉ t)
    (h : u ++ (c :: t ++ v) = u' ++ (c :: t ++ v')) (hv : ¬c :: t <:+: v) (hv' : ¬c :: t <:+: v') :
    u = u' ∧ v = v' := by
  -- if one cut is further on, then the word occurs behind the other one, or overlaps it
  have further : ∀ {w v v' : List Char}, c :: t ++ v = w ++ (c :: t ++ v') → ¬c :: t <:+: v →
      w = [] := by
    intro w v v' hw hv
    cases w with
    | nil => rfl
    | cons d w =>
      have hw : t ++ v = w ++ c :: (t ++ v') := (List.cons.inj hw).2
      rcases List.append_eq_append_iff.mp hw with ⟨s, -, hvs⟩ | ⟨s, hts, hs⟩
      · exact absurd ⟨s, v', by simp [hvs]⟩ hv
      · cases s with
        | nil => exact absurd ⟨[], v', by simpa using hs⟩ hv
        | cons e s =>
          obtain ⟨rfl, -⟩ := List.cons.inj hs
          exact absurd (by simp [hts]) hc
  rcases List.append_eq_append_iff.mp h with ⟨w, hu, hw⟩ | ⟨w, hu, hw⟩
  · obtain rfl := further hw hv
    exact ⟨by rw [hu, List.append_nil], List.append_cancel_left hw⟩
  · obtain rfl := further hw hv'
    exact ⟨by rw [hu, List.append_nil], List.append_cancel_left hw.symm⟩

theorem breakOnLast?_eq_some_iff {c : Char} {t : List Char} (hc : c ∉ t) :
    breakOnLast? (c :: t) cs = some (u, v) ↔ cs = u ++ (c :: t ++ v) ∧ ¬c :: t <:+: v := by
  have found : ∀ {u v}, breakOnLast? (c :: t) cs = some (u, v) →
      cs = u ++ (c :: t ++ v) ∧ ¬c :: t <:+: v := by
    intro u v h
    obtain ⟨⟨first, last⟩, hbreak, heq⟩ := Option.map_eq_some_iff.mp h
    obtain ⟨rfl, rfl⟩ := Prod.mk.inj heq
    obtain ⟨hcs, hfirst⟩ := first_of_breakOn? hbreak
    constructor
    · apply List.reverse_injective
      rw [hcs]
      simp
    · intro hwithin
      rw [← List.reverse_infix, List.reverse_reverse] at hwithin
      obtain ⟨x, y, (hxy : _ = first)⟩ := hwithin
      have hle := hfirst x (y ++ ((c :: t).reverse ++ last)) (by rw [hcs, ← hxy]; simp)
      have hlen := congrArg List.length hxy
      simp only [List.length_append, List.length_reverse, List.length_cons] at hlen
      omega
  constructor
  · exact found
  · rintro ⟨rfl, hv⟩
    cases h : breakOnLast? (c :: t) (u ++ (c :: t ++ v)) with
    | none => exact absurd ⟨u, v, by simp⟩ (breakOnLast?_eq_none_iff.mp h)
    | some p =>
      obtain ⟨heq, hp⟩ := found h
      obtain ⟨hu, hv⟩ := last_occurrence_unique hc heq hv hp
      rw [hu, hv]

theorem not_begins_in_front (hword : ∀ c ∈ word.head?, c ∉ word.tail) (hu : ¬word <:+: u)
    {x y : List Char} (hcut : u = x ++ y) (hy : y ≠ []) : ¬word <+: y ++ (word ++ v) := by
  rintro ⟨z, hz⟩
  rcases List.append_eq_append_iff.mp hz with ⟨s, hs, -⟩ | ⟨s, hs, hrest⟩
  · exact hu ⟨x, s, by rw [hcut, hs, List.append_assoc]⟩
  · cases y with
    | nil => exact hy rfl
    | cons d y =>
      cases s with
      | nil => exact hu ⟨x, [], by rw [hcut, hs]; simp⟩
      | cons e s =>
        -- the second occurrence would begin inside the first
        subst hs
        obtain ⟨rfl, -⟩ := List.cons.inj hrest
        exact hword d rfl (by simp)

theorem infix_append_cons_iff {s : Char} (hs : s ∉ word) :
    word <:+: u ++ s :: v ↔ word <:+: u ∨ word <:+: v := by
  have hbehind : ∀ {l : List Char}, l <+: s :: v → s ∉ l → l = [] := by
    intro l hl hmem
    cases l with
    | nil => rfl
    | cons c l =>
      obtain ⟨rfl, -⟩ := List.cons_prefix_cons.mp hl
      exact absurd List.mem_cons_self hmem
  constructor
  · intro h
    rcases List.infix_append_iff.mp h with h | h | ⟨l, r, rfl, hl, hr⟩
    · exact .inl h
    · rcases List.infix_cons_iff.mp h with h | h
      · rw [hbehind h hs]
        exact .inl List.nil_infix
      · exact .inr h
    · have hnil := hbehind hr fun hmem => hs (List.mem_append_right _ hmem)
      rw [hnil, List.append_nil]
      exact .inl hl.isInfix
  · rintro (h | h)
    · exact h.trans (List.prefix_append u _).isInfix
    · exact h.trans ((List.suffix_cons s v).trans (List.suffix_append u _)).isInfix

/-! ## Searches for a pattern -/

section

variable {α : Type} {pattern : List Char → Option (α × List Char)} {x : α}

theorem findAllFrom_eq_drop (skip : Nat) (cs : List Char) :
    findAllFrom pattern skip cs = findAll pattern (cs.drop skip) := by
  induction cs generalizing skip with
  | nil => rw [List.drop_nil]; rfl
  | cons c cs ih =>
    cases skip with
    | zero => rfl
    | succ skip => exact ih skip

theorem findAll_cons_of_none {c : Char} (h : pattern (c :: cs) = none) :
    findAll pattern (c :: cs) = findAll pattern cs := by
  rw [findAll, findAllFrom, h, findAll]

theorem findAll_cons_of_some {c : Char} {rest : List Char}
    (h : pattern (c :: cs) = some (x, rest)) :
    findAll pattern (c :: cs) = x :: findAll pattern (cs.drop (cs.length - rest.length)) := by
  rw [findAll, findAllFrom, h]
  exact congrArg (x :: ·) (findAllFrom_eq_drop _ cs)

theorem findAll_append_of_some (hu : u ≠ []) (h : pattern (u ++ v) = some (x, v)) :
    findAll pattern (u ++ v) = x :: findAll pattern v := by
  cases u with
  | nil => exact absurd rfl hu
  | cons c u =>
    rw [List.cons_append] at h ⊢
    rw [findAll_cons_of_some h, List.length_append, Nat.add_sub_cancel, List.drop_left]

theorem findAll_append_of_none (h : ∀ y z, u = y ++ z → z ≠ [] → pattern (z ++ v) = none) :
    findAll pattern (u ++ v) = findAll pattern v := by
  induction u with
  | nil => rfl
  | cons c u ih =>
    have hfront : pattern (c :: (u ++ v)) = none := h [] (c :: u) rfl (List.cons_ne_nil c u)
    rw [List.cons_append, findAll_cons_of_none hfront]
    apply ih
    intro y z hyz hz
    exact h (c :: y) z (by rw [hyz, List.cons_append]) hz

theorem exists_of_mem_findAll (h : x ∈ findAll pattern cs) :
    ∃ y z rest, cs = y ++ z ∧ pattern z = some (x, rest) := by
  have hfrom : ∀ skip, x ∈ findAllFrom pattern skip cs →
      ∃ y z rest, cs = y ++ z ∧ pattern z = some (x, rest) := by
    clear h
    induction cs with
    | nil => intro skip h; cases h
    | cons c cs ih =>
      intro skip h
      have later : ∀ skip, x ∈ findAllFrom pattern skip cs →
          ∃ y z rest, c :: cs = y ++ z ∧ pattern z = some (x, rest) := by
        intro skip h
        obtain ⟨y, z, rest, hcs, hz⟩ := ih skip h
        exact ⟨c :: y, z, rest, congrArg (c :: ·) hcs, hz⟩
      cases skip with
      | succ skip => exact later skip h
      | zero =>
        rw [findAllFrom] at h
        cases hread : pattern (c :: cs) with
        | none =>
          rw [hread] at h
          exact later 0 h
        | some p =>
          rw [hread] at h
          rcases List.mem_cons.mp h with rfl | h
          · exact ⟨[], c :: cs, p.2, rfl, hread⟩
          · exact later _ h
  exact hfrom 0 h

end

/-! ## Replacing a word -/

section

variable {old new : List Char}

theorem replaceFrom_eq_drop (skip : Nat) (cs : List Char) :
    replaceFrom old new skip cs = replaceAll old new (cs.drop skip) := by
  induction cs generalizing skip with
  | nil => rw [List.drop_nil]; rfl
  | cons c cs ih =>
    cases skip with
    | zero => rfl
    | succ skip => exact ih skip

theorem replaceAll_append_self (hold : old ≠ []) (cs : List Char) :
    replaceAll old new (old ++ cs) = new ++ replaceAll old new cs := by
  cases old with
  | nil => exact absurd rfl hold
  | cons c old =>
    have hfront : startsWith (c :: old) (c :: (old ++ cs)) = true :=
      startsWith_iff.mpr (List.prefix_append (c :: old) cs)
    rw [List.cons_append, replaceAll, replaceFrom, if_pos hfront, replaceFrom_eq_drop,
      List.length_cons, Nat.add_sub_cancel, List.drop_left]

theorem replaceAll_cons_of_no_match {c : Char} (h : ¬old <+: c :: cs) :
    replaceAll old new (c :: cs) = c :: replaceAll old new cs := by
  rw [replaceAll, replaceFrom, if_neg (mt startsWith_iff.mp h), replaceAll]

theorem replaceAll_cons_of_ne {b c : Char} (h : b ≠ c) (cs : List Char) :
    replaceAll (b :: old) new (c :: cs) = c :: replaceAll (b :: old) new cs :=
  replaceAll_cons_of_no_match fun hbegins => h (List.cons_prefix_cons.mp hbegins).1

end

end SignatureInference.Text
