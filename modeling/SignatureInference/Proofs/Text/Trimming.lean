import SignatureInference.Proofs.Text.Reading

/-! # Trimmed texts

Trimming takes the blanks off both ends of a text and leaves what has none there.
-/
namespace SignatureInference.Text

variable {u v : List Char}

theorem dropWhile_of_head {p : Char → Bool} {cs : List Char} (h : cs.head?.any p = false) :
    cs.dropWhile p = cs := by
  cases cs with
  | nil => rfl
  | cons c cs => simp_all

theorem takeWhile_append_of_head {p : Char → Bool} (hu : ∀ c ∈ u, p c = true)
    (hv : v.head?.any p = false) :
    (u ++ v).takeWhile p = u := by
  rw [List.takeWhile_append_of_pos hu]
  cases v with
  | nil => simp
  | cons c v => rw [List.takeWhile_cons_of_neg (by simpa using hv), List.append_nil]

theorem dropWhile_append_of_head {p : Char → Bool} (hu : ∀ c ∈ u, p c = true)
    (hv : v.head?.any p = false) :
    (u ++ v).dropWhile p = v := by
  rw [List.dropWhile_append_of_pos hu, dropWhile_of_head hv]

theorem head?_dropWhile (p : Char → Bool) (cs : List Char) :
    (cs.dropWhile p).head?.any p = false := by
  have hnot := List.head?_dropWhile_not p cs
  cases h : (cs.dropWhile p).head? with
  | none => rfl
  | some c => simpa [h] using hnot

theorem dropEndWhile_of_last {p : Char → Bool} {cs : List Char} (h : cs.getLast?.any p = false) :
    dropEndWhile p cs = cs := by
  rw [dropEndWhile, dropWhile_of_head (by rwa [List.head?_reverse]), List.reverse_reverse]

theorem dropEndWhile_congr {p q : Char → Bool} {cs : List Char} (h : ∀ c ∈ cs, p c = q c) :
    dropEndWhile p cs = dropEndWhile q cs := by
  have hdrop : ∀ ds : List Char, (∀ c ∈ ds, p c = q c) → ds.dropWhile p = ds.dropWhile q := by
    intro ds
    induction ds with
    | nil => exact fun _ => rfl
    | cons d ds ih =>
      intro hds
      rw [List.forall_mem_cons] at hds
      rw [List.dropWhile_cons, List.dropWhile_cons, hds.1, ih hds.2]
  rw [dropEndWhile, dropEndWhile, hdrop _ fun c hc => h c (List.mem_reverse.mp hc)]

theorem trimEnd_blanks (hv : ∀ c ∈ v, isBlank c = true) (cs : List Char) :
    trimEnd (cs ++ v) = trimEnd cs := by
  rw [trimEnd, trimEnd, dropEndWhile, dropEndWhile, List.reverse_append,
    List.dropWhile_append_of_pos (by simpa using hv)]

theorem exists_append_trimEnd (cs : List Char) :
    ∃ v, cs = trimEnd cs ++ v ∧ ∀ c ∈ v, isBlank c = true := by
  obtain ⟨v, hcut, hv⟩ := exists_append_trimStart cs.reverse
  refine ⟨v.reverse, ?_, by simpa using hv⟩
  simpa [trimEnd, dropEndWhile, trimStart] using congrArg List.reverse hcut

theorem exists_blanks_trim (cs : List Char) :
    ∃ u v, cs = u ++ (trim cs ++ v) ∧ (∀ c ∈ u, isBlank c = true) ∧ ∀ c ∈ v, isBlank c = true := by
  obtain ⟨u, hu, hublank⟩ := exists_append_trimStart cs
  obtain ⟨v, hv, hvblank⟩ := exists_append_trimEnd (trimStart cs)
  exact ⟨u, v, by rw [trim, ← hv, ← hu], hublank, hvblank⟩

theorem mem_of_mem_trim {c : Char} {cs : List Char} (h : c ∈ trim cs) : c ∈ cs := by
  obtain ⟨u, v, hcs, -, -⟩ := exists_blanks_trim cs
  rw [hcs]
  simp [h]

theorem trim_blanks (hu : ∀ c ∈ u, isBlank c = true) (hv : ∀ c ∈ v, isBlank c = true)
    (cs : List Char) :
    trim (u ++ (cs ++ v)) = trim cs := by
  rw [trim, trim, trimStart_blanks hu, trimStart, List.dropWhile_append]
  split
  · next hempty =>
    have hnil : v.dropWhile isBlank = [] := List.dropWhile_eq_nil_iff.mpr hv
    rw [hnil, trimStart, List.isEmpty_iff.mp hempty]
  · exact trimEnd_blanks hv _

theorem isEmpty_trim {cs : List Char} : (trim cs).isEmpty = true ↔ ∀ c ∈ cs, isBlank c = true := by
  rw [List.isEmpty_iff]
  constructor
  · intro h
    obtain ⟨u, v, hcs, hu, hv⟩ := exists_blanks_trim cs
    rw [h, List.nil_append] at hcs
    intro c hc
    rw [hcs] at hc
    exact (List.mem_append.mp hc).elim (hu c) (hv c)
  · intro h
    rw [← List.append_nil cs]
    exact trim_blanks (v := []) h (by simp) []

theorem trim_trimStart (cs : List Char) : trim (trimStart cs) = trim cs := by
  rw [trim, trimStart_trimStart, trim]

theorem trim_trimEnd (cs : List Char) : trim (trimEnd cs) = trim cs := by
  obtain ⟨v, hcs, hv⟩ := exists_append_trimEnd cs
  conv_rhs => rw [hcs]
  exact (trim_blanks (u := []) (by simp) hv (trimEnd cs)).symm

theorem head?_trimStart (cs : List Char) : (trimStart cs).head?.any isBlank = false :=
  head?_dropWhile isBlank cs

theorem getLast?_trimEnd (cs : List Char) : (trimEnd cs).getLast?.any isBlank = false := by
  rw [trimEnd, dropEndWhile, List.getLast?_reverse]
  exact head?_trimStart cs.reverse

theorem trim_of_ends {cs : List Char} (hhead : cs.head?.any isBlank = false)
    (hlast : cs.getLast?.any isBlank = false) : trim cs = cs := by
  rw [trim, trimStart, dropWhile_of_head hhead, trimEnd, dropEndWhile_of_last hlast]

theorem trim_of_no_blank {cs : List Char} (h : ∀ c ∈ cs, isBlank c = false) : trim cs = cs := by
  have hany : ∀ {o : Option Char}, (∀ c ∈ o, c ∈ cs) → o.any isBlank = false := by
    intro o ho
    cases o with
    | none => rfl
    | some c => exact h c (ho c rfl)
  exact trim_of_ends (hany fun c hc => List.mem_of_head? hc)
    (hany fun c hc => List.mem_of_getLast? hc)

theorem ends_trim (cs : List Char) :
    (trim cs).head?.any isBlank = false ∧ (trim cs).getLast?.any isBlank = false := by
  refine ⟨?_, getLast?_trimEnd _⟩
  obtain ⟨v, hcut, hv⟩ := exists_append_trimEnd (trimStart cs)
  cases htrim : trimEnd (trimStart cs) with
  | nil =>
    rw [trim, htrim]
    rfl
  | cons c rest =>
    have hhead := head?_trimStart cs
    rw [hcut, htrim] at hhead
    rw [trim, htrim]
    exact hhead

/-! ## Blanks in front of and behind other characters -/

section

variable {s r g w m : List Char} {c : Char}

theorem prefix_of_blanks (hs : ∀ d ∈ s, isBlank d = true) (hc : isBlank c = false)
    (h : s ++ r = g ++ c :: w) :
    s <+: g := by
  rcases List.append_eq_append_iff.mp h with ⟨p, hg, -⟩ | ⟨p, hp, hrest⟩
  · exact ⟨p, hg.symm⟩
  · cases p with
    | nil => exact ⟨[], by simpa using hp⟩
    | cons d p =>
      obtain ⟨rfl, -⟩ := List.cons.inj hrest
      have hblank := hs c (by simp [hp])
      rw [hc] at hblank
      cases hblank

theorem suffix_of_blanks (hs : ∀ d ∈ s, isBlank d = true) (hc : isBlank c = false)
    (h : r ++ s = w ++ c :: g) :
    s <:+ g := by
  have hreverse := congrArg List.reverse h
  rw [List.reverse_append, List.reverse_append, List.reverse_cons, List.append_assoc,
    List.singleton_append] at hreverse
  exact List.reverse_prefix.mp (prefix_of_blanks (by simpa using hs) hc hreverse)

theorem exists_append_of_trim (hm : m.head?.any isBlank = false) (hne : m ≠ []) (htrim : trim u = m)
    (h : u ++ r = m ++ w) : ∃ s, u = m ++ s ∧ ∀ c ∈ s, isBlank c = true := by
  obtain ⟨p, s, hu, hp, hs⟩ := exists_blanks_trim u
  obtain ⟨c, m', rfl⟩ := List.exists_cons_of_ne_nil hne
  rw [htrim] at hu
  have hnil : p <+: [] :=
    prefix_of_blanks hp (by simpa using hm) (g := []) (by rw [← List.append_assoc, ← hu]; exact h)
  obtain rfl := List.prefix_nil.mp hnil
  exact ⟨s, hu, hs⟩

theorem exists_append_of_trim_end (hm : m.getLast?.any isBlank = false) (hne : m ≠ [])
    (htrim : trim v = m) (h : r ++ v = w ++ m) : ∃ s, v = s ++ m ∧ ∀ c ∈ s, isBlank c = true := by
  obtain ⟨s, p, hv, hs, hp⟩ := exists_blanks_trim v
  obtain ⟨m', c, rfl⟩ := (List.eq_nil_or_concat' m).resolve_left hne
  rw [htrim] at hv
  have hnil : p <:+ [] := by
    refine suffix_of_blanks hp (by simpa using hm) (g := []) (r := r ++ (s ++ (m' ++ [c])))
      (w := w ++ m') (c := c) ?_
    rw [List.append_assoc, List.append_assoc, ← hv, List.append_assoc]
    exact h
  obtain rfl := List.suffix_nil.mp hnil
  exact ⟨s, by simpa using hv, hs⟩

end

end SignatureInference.Text
