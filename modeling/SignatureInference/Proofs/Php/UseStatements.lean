import SignatureInference.Proofs.Php.UseClauses
import SignatureInference.Proofs.SortedMap

/-! # Import statements

A statement that imports classes has clauses with commas between them, after a common name and in
braces or as they are. If all its clauses are exact, the statement maps every alias to the name that
the last clause for it gives, and keeps all other aliases. A single clause is read like this only if
it is exact.
-/
namespace SignatureInference.Php

open Text

/-! ## What is written -/

structure ListedClause where
  before : Gap
  clause : UseClause
  after : Gap

def ListedClause.text (l : ListedClause) : List Char :=
  l.before.text ++ (l.clause.text ++ l.after.text)

/-- Clauses with commas between them and possibly one more behind the last. -/
structure ClauseList where
  first : ListedClause
  others : List ListedClause
  trailing? : Option Gap

namespace ClauseList

def listed (l : ClauseList) : List ListedClause := l.first :: l.others

def pieces (l : ClauseList) : List (List Char) :=
  l.listed.map ListedClause.text ++ (l.trailing?.map Gap.text).toList

def text (l : ClauseList) : List Char := [','].intercalate l.pieces

end ClauseList

/-- A statement behind its keyword: a list of clauses, in braces if it has a common name in
front. -/
def useBody (group? : Option WrittenName) (list : ClauseList) : List Char :=
  match group? with
  | none => list.text
  | some group => group.text ++ '\\' :: '\x7b' :: (list.text ++ ['\x7d'])

structure UseStatement where
  lead : Gap
  group? : Option WrittenName
  list : ClauseList
  tail : Gap
  closed : Bool
  /-- The keyword stands apart. -/
  apart : lead.text = [] → (useBody group? list).head? = some '\\'

namespace UseStatement

variable (s : UseStatement)

def body : List Char := useBody s.group? s.list

def rest : List Char := s.lead.text ++ (s.body ++ (s.tail.text ++ if s.closed then [';'] else []))

def text : List Char := "use".toList ++ s.rest

def clauses : List UseClause := s.list.listed.map (·.clause)

def qualified (c : UseClause) : List Char :=
  match s.group? with
  | none => c.name.plain
  | some group => group.plain ++ '\\' :: c.name.plain

/-- The name that an alias stands for by the statement; of several clauses for it the last one
counts. -/
def target? (name : String) : Option String :=
  (s.clauses.reverse.find? fun c => String.ofList c.key = name).map fun c =>
    String.ofList (s.qualified c)

/-- The statement is read without a failure and gives its aliases their names, and no others. -/
def ReadInto (imports : Imports) : Prop :=
  ∃ m : Imports, Imports.addStatement imports s.text = .ok m ∧
    ∀ name, m.get? name = (s.target? name).or (imports.get? name)

/-- The keywords `function` and `const` would make it an import of functions or constants. -/
def ImportsClasses : Prop :=
  s.group? = none → s.list.first.clause.name.text ≠ "function".toList ∧
    s.list.first.clause.name.text ≠ "const".toList

end UseStatement

/-! ## Clauses of a list -/

theorem clauses_blanks {u v : List Char} (hu : ∀ c ∈ u, isBlank c = true)
    (hv : ∀ c ∈ v, isBlank c = true) (cs : List Char) :
    Imports.clauses (u ++ (cs ++ v)) = Imports.clauses cs := by
  have hsingle : ∀ {x y : List Char}, (∀ c ∈ x, isBlank c = true) → (∀ c ∈ y, isBlank c = true) →
      ∀ {cs}, ',' ∉ cs → (splitWhere (· == ',') (x ++ (cs ++ y))).map trim = [trim cs] := by
    intro x y hx hy cs hcs
    rw [splitWhere_of_not_mem, List.map_singleton, trim_blanks hx hy]
    intro c hc
    rw [beq_eq_false_iff_ne]
    rintro rfl
    rcases List.mem_append.mp hc with hc | hc
    · exact absurd (hx _ hc) (by decide)
    · rcases List.mem_append.mp hc with hc | hc
      · exact hcs hc
      · exact absurd (hy _ hc) (by decide)
  have hone : ∀ {cs}, ',' ∉ cs → (splitWhere (· == ',') cs).map trim = [trim cs] := fun h => by
    rw [← hsingle (x := []) (y := []) (by simp) (by simp) h, List.append_nil, List.nil_append]
  have hfront : ∀ cs, (splitWhere (· == ',') (u ++ cs)).map trim =
      (splitWhere (· == ',') cs).map trim := by
    intro cs
    have hleft : ∀ {cs}, ',' ∉ cs → (splitWhere (· == ',') (u ++ cs)).map trim = [trim cs] := by
      intro cs h
      rw [← hsingle (y := []) hu (by simp) h, List.append_nil]
    cases h : breakOn? [','] cs with
    | none => rw [hleft (breakOn?_eq_none.mp h), hone (breakOn?_eq_none.mp h)]
    | some p =>
      obtain ⟨rfl, hfirst⟩ := breakOn?_eq_some.mp h
      rw [← List.append_assoc, splitWhere_append rfl, splitWhere_append rfl, List.map_append,
        List.map_append, hone hfirst, hleft hfirst]
  have hback : ∀ cs, (splitWhere (· == ',') (cs ++ v)).map trim =
      (splitWhere (· == ',') cs).map trim := by
    intro cs
    have hright : ∀ {cs}, ',' ∉ cs → (splitWhere (· == ',') (cs ++ v)).map trim = [trim cs] :=
      fun h => hsingle (x := []) (by simp) hv h
    cases h : breakOnLast? [','] cs with
    | none => rw [hright (breakOnLast?_eq_none.mp h), hone (breakOnLast?_eq_none.mp h)]
    | some p =>
      obtain ⟨rfl, hlast⟩ := breakOnLast?_eq_some.mp h
      rw [List.append_assoc, List.cons_append, splitWhere_append rfl, splitWhere_append rfl,
        List.map_append, List.map_append, hone hlast, hright hlast]
  rw [Imports.clauses, hfront, hback, Imports.clauses]

theorem clauses_trim (cs : List Char) : Imports.clauses (trim cs) = Imports.clauses cs := by
  obtain ⟨u, v, hcs, hu, hv⟩ := exists_blanks_trim cs
  conv_rhs => rw [hcs]
  rw [clauses_blanks hu hv]

theorem UseClause.mem_text {c : UseClause} {d : Char} (hd : d ∈ c.text) :
    isNameChar d = true ∨ isSpace d = true := by
  have hident : ∀ {i : Identifier}, d ∈ i.text → isNameChar d = true := by
    intro i hi
    rw [isNameChar, i.parts d hi]
    rfl
  rw [text, List.mem_append] at hd
  rcases hd with hd | hd
  · exact .inl (c.name.isNameChar_of_mem d hd)
  · cases ha : c.aliasing? with
    | none => simp [ha] at hd
    | some a =>
      simp only [ha, Option.map_some, Option.getD_some, Aliasing.text, List.mem_append] at hd
      rcases hd with hd | hd | hd | hd
      · exact .inr (a.before.blank d hd)
      · exact .inl (a.word_spec d hd).2.2.2
      · exact .inr (a.after.blank d hd)
      · exact .inl (hident hd)

namespace ClauseList

variable (l : ClauseList)

theorem mem_pieces {piece : List Char} (hpiece : piece ∈ l.pieces) {d : Char} (hd : d ∈ piece) :
    isNameChar d = true ∨ isSpace d = true := by
  rw [pieces, List.mem_append] at hpiece
  rcases hpiece with hpiece | hpiece
  · obtain ⟨listed, -, rfl⟩ := List.mem_map.mp hpiece
    rcases List.mem_append.mp hd with hd | hd
    · exact .inr (listed.before.blank d hd)
    · rcases List.mem_append.mp hd with hd | hd
      · exact UseClause.mem_text hd
      · exact .inr (listed.after.blank d hd)
  · obtain ⟨g, -, rfl⟩ : ∃ g, l.trailing? = some g ∧ g.text = piece := by simpa using hpiece
    exact .inr (g.blank d hd)

theorem splitWhere_text : splitWhere (· == ',') l.text = l.pieces := by
  refine splitWhere_intercalate (by simp [pieces, listed]) fun piece hpiece hcomma => ?_
  rcases l.mem_pieces hpiece hcomma with h | h
  · exact absurd h (by decide)
  · exact absurd h (by decide)

theorem not_mem_text {d : Char} (hname : isNameChar d = false) (hspace : isSpace d = false)
    (hcomma : d ≠ ',') :
    d ∉ l.text := by
  intro hd
  rcases mem_splitWhere (p := (· == ',')) hd with h | ⟨piece, hpiece, hmem⟩
  · exact hcomma (by simpa using h)
  · rw [l.splitWhere_text] at hpiece
    rcases l.mem_pieces hpiece hmem with h | h
    · rw [hname] at h
      cases h
    · rw [hspace] at h
      cases h

theorem clauses_text :
    Imports.clauses l.text = (l.listed.map fun c => trim c.clause.text).filter (!·.isEmpty) := by
  have htrailing : ((l.trailing?.map Gap.text).toList.map trim).filter (!·.isEmpty) = [] := by
    cases l.trailing? with
    | none => rfl
    | some g =>
      have htrim : trim g.text = [] := by
        rw [← List.append_nil g.text]
        exact trim_blanks (v := []) g.isBlank_of_mem (by simp) []
      simp [htrim]
  rw [Imports.clauses, l.splitWhere_text, pieces, List.map_append, List.filter_append, htrailing,
    List.append_nil, List.map_map]
  congr 1
  refine List.map_congr_left fun c _ => ?_
  exact trim_blanks c.before.isBlank_of_mem c.after.isBlank_of_mem _

end ClauseList

/-! ## The parts of a statement -/

theorem dropUses_of_head {cs : List Char} (h : cs.head? ≠ some 'u') : Imports.dropUses cs = cs := by
  unfold Imports.dropUses
  split
  · exact absurd rfl h
  · rfl

namespace UseStatement

variable (s : UseStatement)

/-- What a statement imports is looked for in this part of it. -/
def content : List Char := trimStart (trimEnd s.rest)

theorem trimStart_dropUses_text : trimStart (Imports.dropUses (trim s.text)) = s.content := by
  have htrim : trim s.text = 'u' :: 's' :: 'e' :: trimEnd s.rest := by
    have hstart : trimStart s.text = ['u', 's'] ++ 'e' :: s.rest := rfl
    rw [trim, hstart, trimEnd_stop (by decide)]
    rfl
  have hhead : (trimEnd s.rest).head? ≠ some 'u' := by
    intro hu
    obtain ⟨v, hv, -⟩ := exists_append_trimEnd s.rest
    obtain ⟨cs, hcs⟩ := List.head?_eq_some_iff.mp hu
    rw [hcs, rest] at hv
    cases hlead : s.lead.text with
    | nil =>
      obtain ⟨more, hmore⟩ := List.head?_eq_some_iff.mp (s.apart hlead)
      rw [hlead, body, hmore] at hv
      exact absurd (List.cons.inj hv).1 (by decide)
    | cons c more =>
      have hc : isSpace c = true := s.lead.blank c (by simp [hlead])
      rw [hlead] at hv
      obtain ⟨rfl, -⟩ := List.cons.inj hv
      exact absurd hc (by decide)
  rw [htrim, Imports.dropUses, dropUses_of_head hhead, content]

theorem not_mem_body : ';' ∉ s.body := by
  intro h
  have hlist : ';' ∉ s.list.text := s.list.not_mem_text (by decide) (by decide) (by decide)
  cases hgroup : s.group? with
  | none =>
    rw [body, hgroup] at h
    exact hlist h
  | some group =>
    rw [body, hgroup] at h
    simp only [useBody, List.mem_append, List.mem_cons, List.not_mem_nil, or_false] at h
    rcases h with h | h | h | h | h
    · exact group.not_mem_text (by decide) h
    · exact absurd h (by decide)
    · exact absurd h (by decide)
    · exact hlist h
    · exact absurd h (by decide)

theorem trim_content : trim (dropEndWhile (· == ';') (trim s.content)) = trim s.body := by
  have hbody : trim (s.lead.text ++ (s.body ++ s.tail.text)) = trim s.body :=
    trim_blanks s.lead.isBlank_of_mem s.tail.isBlank_of_mem _
  have hkeep : ∀ {cs : List Char}, ';' ∉ cs → dropEndWhile (· == ';') cs = cs := by
    intro cs hcs
    apply dropEndWhile_of_last
    rw [Option.any_eq_false]
    intro d hd
    rw [beq_eq_false_iff_ne]
    rintro rfl
    exact hcs (List.mem_of_getLast? hd)
  cases hclosed : s.closed with
  | false =>
    have hrest : s.rest = s.lead.text ++ (s.body ++ s.tail.text) := by simp [rest, hclosed]
    have hsemi : ';' ∉ trim s.body := fun h => s.not_mem_body (mem_of_mem_trim h)
    rw [content, trim_trimStart, trim_trimEnd, hrest, hbody, hkeep hsemi]
    exact trim_of_ends (ends_trim _).1 (ends_trim _).2
  | true =>
    have hrest : s.rest = (s.lead.text ++ (s.body ++ s.tail.text)) ++ [';'] := by
      simp [rest, hclosed]
    have hsemi : ';' ∉ trimStart (s.lead.text ++ (s.body ++ s.tail.text)) := by
      intro h
      have hmem := (List.dropWhile_suffix _).subset h
      simp only [List.mem_append] at hmem
      rcases hmem with h | h | h
      · exact absurd (s.lead.blank _ h) (by decide)
      · exact s.not_mem_body h
      · exact absurd (s.tail.blank _ h) (by decide)
    generalize s.lead.text ++ (s.body ++ s.tail.text) = x at *
    have hcontent : s.content = trimStart x ++ [';'] := by
      rw [content, hrest, trimEnd_stop (by decide), trimStart_stop (by decide)]
      rfl
    have htrim : trim (trimStart x ++ [';']) = trimStart x ++ [';'] := by
      rw [trim, trimStart_stop (by decide), trimStart_trimStart, trimEnd_stop (by decide)]
      rfl
    have hdrop : dropEndWhile (· == ';') (trimStart x ++ [';']) =
        dropEndWhile (· == ';') (trimStart x) := by
      simp [dropEndWhile]
    rw [hcontent, htrim, hdrop, hkeep hsemi, trim_trimStart, hbody]

def groupText : List Char := (s.group?.map WrittenName.text).getD []

theorem breakOn?_group {group : WrittenName} (hgroup : group.text.head?.any isBlank = false)
    (l : ClauseList) :
    trim (useBody (some group) l) = useBody (some group) l ∧
      breakOn? ['\x7b'] (useBody (some group) l) = some (group.text ++ ['\\'], l.text ++ ['\x7d']) ∧
      breakOn? ['\x7d'] (useBody (some group) l) =
        some (group.text ++ '\\' :: '\x7b' :: l.text, []) := by
  have hopen : '\x7b' ∉ group.text ++ ['\\'] := by
    simp [group.not_mem_text (c := '\x7b') (by decide)]
  have hclose : '\x7d' ∉ group.text ++ '\\' :: '\x7b' :: l.text := by
    simp [group.not_mem_text (c := '\x7d') (by decide),
      l.not_mem_text (d := '\x7d') (by decide) (by decide) (by decide)]
  refine ⟨trim_of_ends ?_ ?_, breakOn?_eq_some.mpr ⟨?_, hopen⟩, breakOn?_eq_some.mpr ⟨?_, hclose⟩⟩
  · rw [useBody, List.head?_append_of_ne_nil _ group.text_ne_nil]
    exact hgroup
  · have hconcat : useBody (some group) l = (group.text ++ '\\' :: '\x7b' :: l.text) ++
        ['\x7d'] := by
      simp [useBody]
    rw [hconcat, List.getLast?_concat]
    decide
  · simp [useBody]
  · simp [useBody]

theorem dropEndWhile_group {group : WrittenName} (hgroup : group.text.head?.any isBlank = false) :
    dropEndWhile (· == '\\') (trim (group.text ++ ['\\'])) = group.text := by
  have htrim : trim (group.text ++ ['\\']) = group.text ++ ['\\'] := by
    apply trim_of_ends
    · rw [List.head?_append_of_ne_nil _ group.text_ne_nil]
      exact hgroup
    · rw [List.getLast?_concat]
      decide
  have hlast : group.text.getLast?.any (· == '\\') = false := by
    rw [group.getLast?_text, Option.any_eq_false]
    intro d hd
    rw [beq_eq_false_iff_ne]
    rintro rfl
    exact absurd (group.last.parts _ (List.mem_of_getLast? hd)) (by decide)
  have hdrop : dropEndWhile (· == '\\') (group.text ++ ['\\']) =
      dropEndWhile (· == '\\') group.text := by
    simp [dropEndWhile]
  rw [htrim, hdrop, dropEndWhile_of_last hlast]

/-- A statement of functions or constants imports nothing, any other one what its clauses say. -/
theorem addStatement_text (hgroup : ∀ group ∈ s.group?, group.text.head?.any isBlank = false)
    (imports : Imports) :
    Imports.addStatement imports s.text =
      if startsWith "function ".toList s.content || startsWith "const ".toList s.content
        then .ok imports
      else ((s.clauses.map fun c => trim c.text).filter (!·.isEmpty)).foldlM
        (Imports.addClause s.groupText) imports := by
  have hclauses : Imports.clauses s.list.text =
      (s.clauses.map fun c => trim c.text).filter (!·.isEmpty) := by
    rw [s.list.clauses_text, clauses, List.map_map]
    rfl
  rw [Imports.addStatement, s.trimStart_dropUses_text]
  simp only [s.trim_content]
  split
  · rfl
  · cases hg : s.group? with
    | none =>
      have hbody : s.body = s.list.text := by rw [body, hg, useBody]
      have hnone : breakOn? ['\x7b'] (trim s.body) = none := by
        rw [breakOn?_eq_none, hbody]
        exact fun h => s.list.not_mem_text (by decide) (by decide) (by decide) (mem_of_mem_trim h)
      have hempty : s.groupText = [] := by rw [groupText, hg]; rfl
      rw [hnone, hempty]
      simp only
      rw [clauses_trim, hbody, hclauses]
    | some group =>
      obtain ⟨htrim, hopen, hclose⟩ := breakOn?_group (hgroup group hg) s.list
      have hbody : s.body = useBody (some group) s.list := by rw [body, hg]
      have htext : s.groupText = group.text := by rw [groupText, hg]; rfl
      have hinner : (s.list.text ++ ['\x7d']).takeWhile (· != '\x7d') = s.list.text := by
        rw [takeWhile_stop (by decide), List.takeWhile_eq_self_iff]
        intro d hd
        rw [bne_iff_ne]
        rintro rfl
        exact s.list.not_mem_text (by decide) (by decide) (by decide) hd
      rw [hbody, htrim, hopen, hclose, htext]
      simp only
      rw [if_neg (by simp), dropEndWhile_group (hgroup group hg), hinner, hclauses]

theorem qualified_eq (c : UseClause) :
    (if s.groupText = [] then c.name.plain
      else ClassName.dropLeadingBackslashes s.groupText ++ '\\' :: c.name.plain) =
        s.qualified c := by
  cases hg : s.group? with
  | none =>
    have hempty : s.groupText = [] := by rw [groupText, hg]; rfl
    rw [if_pos hempty, qualified, hg]
  | some group =>
    have htext : s.groupText = group.text := by rw [groupText, hg]; rfl
    rw [htext, if_neg group.text_ne_nil, group.dropLeadingBackslashes_text, qualified, hg]

theorem foldlM_addClause {cs : List UseClause} (h : ∀ c ∈ cs, c.Exact) (imports : Imports) :
    (cs.map UseClause.text).foldlM (Imports.addClause s.groupText) imports =
      .ok (cs.foldl (fun m c => m.insert (String.ofList c.key) (String.ofList (s.qualified c)))
        imports) := by
  induction cs generalizing imports with
  | nil => rfl
  | cons c cs ih =>
    have hc : c.Exact := h c List.mem_cons_self
    rw [List.map_cons, List.foldlM_cons, hc.addClause_text, s.qualified_eq]
    exact ih (fun d hd => h d (List.mem_cons_of_mem _ hd)) _

/-! ## Imports of functions and constants -/

theorem not_startsWith {name more word : List Char} (hname : ∀ c ∈ name, isNameChar c = true)
    (hmore : ∀ d ∈ more.head?, isNameChar d = false) (hword : ∀ c ∈ word, isNameChar c = true)
    (hne : name ≠ word) : startsWith (word ++ [' ']) (name ++ more) = false := by
  have htakeMore : more.takeWhile isNameChar = [] := by
    cases more with
    | nil => rfl
    | cons d more => rw [List.takeWhile_cons_of_neg (by simp [hmore d rfl])]
  rw [← Bool.not_eq_true, startsWith_iff]
  rintro ⟨z, hz⟩
  apply hne
  have htake := congrArg (List.takeWhile isNameChar) hz
  rw [List.takeWhile_append_of_pos hname, htakeMore, List.append_nil, List.append_assoc,
    List.takeWhile_append_of_pos hword, List.singleton_append,
    List.takeWhile_cons_of_neg (by decide), List.append_nil] at htake
  exact htake.symm

theorem exists_content {g name r : List Char} (hrest : s.rest = g ++ (name ++ r))
    (hg : ∀ c ∈ g, isBlank c = true) (hne : name ≠ []) (htight : Tight name)
    (hr : ∀ d ∈ r.head?, isNameChar d = false) :
    ∃ more, s.content = name ++ more ∧ ∀ d ∈ more.head?, isNameChar d = false := by
  obtain ⟨v, hv, -⟩ := exists_append_trimEnd r
  refine ⟨trimEnd r, ?_, fun d hd => hr d ?_⟩
  · obtain ⟨u, c, rfl⟩ := (List.eq_nil_or_concat' name).resolve_left hne
    have hc : isBlank c = false := by simpa using htight.2
    have hcut : s.rest = (g ++ u) ++ c :: r := by simp [hrest]
    have hend : trimEnd s.rest = g ++ ((u ++ [c]) ++ trimEnd r) := by
      rw [hcut, trimEnd_stop hc]
      simp
    rw [content, hend, trimStart_blanks hg, trimStart, dropWhile_of_head]
    rw [List.head?_append_of_ne_nil _ hne]
    exact htight.1
  · rw [hv]
    obtain ⟨more, hmore⟩ := List.head?_eq_some_iff.mp hd
    rw [hmore]
    rfl

theorem head?_append_not_name {x y : List Char} (hx : ∀ d ∈ x.head?, isNameChar d = false)
    (hy : ∀ d ∈ y.head?, isNameChar d = false) : ∀ d ∈ (x ++ y).head?, isNameChar d = false := by
  cases x with
  | nil => exact hy
  | cons c x => exact hx

theorem head?_gap (g : Gap) : ∀ d ∈ g.text.head?, isNameChar d = false := by
  intro d hd
  exact (isSpace_spec (g.blank d (List.mem_of_head? hd))).2.2.2.2.1

theorem exists_list_text (l : ClauseList) :
    ∃ r, l.text = l.first.before.text ++ (l.first.clause.name.text ++ r) ∧
      ∀ d ∈ r.head?, isNameChar d = false := by
  obtain ⟨t, ht, hcomma⟩ : ∃ t, l.text = l.first.text ++ t ∧
      ∀ d ∈ t.head?, isNameChar d = false := by
    rw [ClauseList.text, ClauseList.pieces, ClauseList.listed, List.map_cons, List.cons_append]
    cases l.others.map ListedClause.text ++ (l.trailing?.map Gap.text).toList with
    | nil => exact ⟨[], by simp, by simp⟩
    | cons next pieces =>
      refine ⟨',' :: [','].intercalate (next :: pieces), ?_, by simp; decide⟩
      rw [List.intercalate_cons_cons, List.append_assoc]
      rfl
  refine ⟨(l.first.clause.aliasing?.map Aliasing.text).getD [] ++ (l.first.after.text ++ t), ?_, ?_⟩
  · rw [ht, ListedClause.text, UseClause.text]
    simp
  · exact head?_append_not_name l.first.clause.head?_aliasing
      (head?_append_not_name (head?_gap _) hcomma)

theorem not_startsWith_list (hnone : s.group? = none) (hfirst : Tight s.list.first.clause.name.text)
    {word : List Char} (hletters : ∀ c ∈ word, isNameChar c = true)
    (hword : s.list.first.clause.name.text ≠ word) :
    startsWith (word ++ [' ']) s.content = false := by
  obtain ⟨r, hlist, hr⟩ := exists_list_text s.list
  have hend : ∀ d ∈ (if s.closed then [';'] else []).head?, isNameChar d = false := by
    cases s.closed with
    | false => simp
    | true => decide
  have hrest : s.rest = (s.lead.text ++ s.list.first.before.text) ++
    (s.list.first.clause.name.text ++
      (r ++ (s.tail.text ++ if s.closed then [';'] else []))) := by
    simp [rest, body, hnone, useBody, hlist]
  have hblank : ∀ c ∈ s.lead.text ++ s.list.first.before.text, isBlank c = true := by
    intro c hc
    exact (List.mem_append.mp hc).elim (s.lead.isBlank_of_mem c)
      (s.list.first.before.isBlank_of_mem c)
  obtain ⟨more, hcontent, hmore⟩ := s.exists_content hrest hblank (WrittenName.text_ne_nil _) hfirst
    (head?_append_not_name hr (head?_append_not_name (head?_gap _) hend))
  rw [hcontent]
  exact not_startsWith (WrittenName.isNameChar_of_mem _) hmore hletters hword

theorem not_startsWith_group {group : WrittenName} (hsome : s.group? = some group)
    (hgroup : group.text.head?.any isBlank = false) {word : List Char}
    (hletters : ∀ c ∈ word, isNameChar c = true ∧ c ≠ '\\') :
    startsWith (word ++ [' ']) s.content = false := by
  have hrest : s.rest = s.lead.text ++
    ((group.text ++ ['\\']) ++ ('\x7b' :: (s.list.text ++ '\x7d' ::
      (s.tail.text ++ if s.closed then [';'] else [])))) := by
    simp [rest, body, hsome, useBody]
  have htight : Tight (group.text ++ ['\\']) := by
    constructor
    · rw [List.head?_append_of_ne_nil _ group.text_ne_nil]
      exact hgroup
    · rw [List.getLast?_concat]
      decide
  have hchars : ∀ c ∈ group.text ++ ['\\'], isNameChar c = true := by
    intro c hc
    rcases List.mem_append.mp hc with hc | hc
    · exact group.isNameChar_of_mem c hc
    · rw [List.mem_singleton.mp hc]
      decide
  obtain ⟨more, hcontent, hmore⟩ := s.exists_content hrest s.lead.isBlank_of_mem (by simp) htight
    (by simp; decide)
  rw [hcontent]
  refine not_startsWith hchars hmore (fun c hc => (hletters c hc).1) ?_
  rintro rfl
  exact (hletters '\\' (by simp)).2 rfl

theorem not_startsWith_content (hclasses : s.ImportsClasses)
    (hgroup : ∀ group ∈ s.group?, group.text.head?.any isBlank = false)
    (hfirst : Tight s.list.first.clause.name.text) {word : List Char}
    (hword : word = "function".toList ∨ word = "const".toList) :
    startsWith (word ++ [' ']) s.content = false := by
  have hletters : ∀ c ∈ word, isNameChar c = true ∧ c ≠ '\\' := by
    rcases hword with rfl | rfl
    · decide
    · decide
  cases hg : s.group? with
  | none =>
    refine s.not_startsWith_list hg hfirst (fun c hc => (hletters c hc).1) ?_
    rcases hword with rfl | rfl
    · exact (hclasses hg).1
    · exact (hclasses hg).2
  | some group => exact s.not_startsWith_group hg (hgroup group hg) hletters

/-- A statement of exact clauses is read as it is meant. -/
theorem readInto_of_exact (hclasses : s.ImportsClasses)
    (hgroup : ∀ group ∈ s.group?, group.text.head?.any isBlank = false)
    (h : ∀ c ∈ s.clauses, c.Exact) (imports : Imports) : s.ReadInto imports := by
  have hfirst : s.list.first.clause.Exact := h _ (by simp [clauses, ClauseList.listed])
  have hfunction := s.not_startsWith_content hclasses hgroup hfirst.1 (.inl rfl)
  have hconst := s.not_startsWith_content hclasses hgroup hfirst.1 (.inr rfl)
  have hread : (s.clauses.map fun c => trim c.text).filter (!·.isEmpty) =
      s.clauses.map UseClause.text := by
    rw [List.map_congr_left fun c hc => (h c hc).trim_text, List.filter_eq_self]
    intro text htext
    obtain ⟨c, -, rfl⟩ := List.mem_map.mp htext
    simpa using c.text_ne_nil
  refine ⟨_, ?_, SortedMap.get?_foldl_insert (fun c : UseClause => String.ofList c.key)
    (fun c => String.ofList (s.qualified c)) s.clauses imports⟩
  rw [s.addStatement_text hgroup, if_neg, hread, s.foldlM_addClause h]
  rw [Bool.or_eq_true, not_or, Bool.not_eq_true, Bool.not_eq_true]
  exact ⟨hfunction, hconst⟩

/-- A single clause that is read as it is meant is exact. -/
theorem exact_of_readInto {c : UseClause}
    (hgroup : ∀ group ∈ s.group?, group.text.head?.any isBlank = false) (hc : s.clauses = [c])
    (h : s.ReadInto ∅) : c.Exact := by
  obtain ⟨m, hadd, hm⟩ := h
  have htarget : m.get? (String.ofList c.key) = some (String.ofList (s.qualified c)) := by
    rw [hm, target?, hc]
    simp
  have hempty : m ≠ ∅ := by
    rintro rfl
    cases htarget
  rw [s.addStatement_text hgroup] at hadd
  split at hadd
  · exact absurd (Except.ok.inj hadd).symm hempty
  · have hclause : Imports.addClause s.groupText ∅ (trim c.text) = .ok m := by
      rw [hc, List.map_singleton] at hadd
      by_cases hnil : trim c.text = []
      · rw [hnil] at hadd
        exact absurd (Except.ok.inj hadd).symm hempty
      · rw [List.filter_cons_of_pos (by simpa using hnil), List.filter_nil,
          List.foldlM_cons] at hadd
        simpa using hadd
    rw [Imports.addClause] at hclause
    cases hsplit : Imports.splitAlias (trim c.text) with
    | error e =>
      rw [hsplit] at hclause
      cases hclause
    | ok parts =>
      obtain ⟨nm, other⟩ := parts
      rw [hsplit] at hclause
      simp only [bind, Except.bind, pure, Except.pure, Except.ok.injEq] at hclause
      subst hclause
      -- of an empty map, only the new entry can be the one that is meant
      rw [SortedMap.get?_insert] at htarget
      split at htarget
      · next hkey =>
        have hkey : other.getD (Imports.lastSegment (ClassName.dropLeadingBackslashes nm)) =
            c.key := by
          simpa using (congrArg String.toList hkey).symm
        have hname : ClassName.dropLeadingBackslashes nm = c.name.plain := by
          have hvalue := congrArg String.toList (Option.some.inj htarget)
          rw [String.toList_ofList, String.toList_ofList, ← s.qualified_eq] at hvalue
          split at hvalue
          · exact hvalue
          · exact (List.cons.inj (List.append_cancel_left hvalue)).2
        rw [hname] at hkey
        exact UseClause.exact_of_splitAlias hsplit hname hkey
      · cases htarget

/-- Class imports are read as they are meant if all clauses are exact, whatever blanks and commas
stand between them and whatever was imported before. Of a single clause this is the only way. -/
theorem class_imports_read (hclasses : s.ImportsClasses)
    (hgroup : ∀ group ∈ s.group?, group.text.head?.any isBlank = false) :
    ((∀ c ∈ s.clauses, c.Exact) → ∀ imports, s.ReadInto imports) ∧
      ∀ c, s.clauses = [c] → ((∀ imports, s.ReadInto imports) ↔ c.Exact) := by
  refine ⟨s.readInto_of_exact hclasses hgroup, fun c hc => ⟨fun h => ?_, fun h => ?_⟩⟩
  · exact s.exact_of_readInto hgroup hc (h ∅)
  · refine s.readInto_of_exact hclasses hgroup fun d hd => ?_
    rw [hc, List.mem_singleton] at hd
    exact hd ▸ h

def mailImports : UseStatement where
  lead := ⟨[' '], by decide⟩
  group? := some ⟨true, [], ⟨"App".toList, by decide, by decide⟩⟩
  list :=
    { first :=
        { before := ⟨['\n', '\t'], by decide⟩
          clause :=
            { name :=
                ⟨false, [⟨"Mail".toList, by decide, by decide⟩],
                  ⟨"Straße".toList, by decide, by decide⟩⟩
              aliasing? := some
                { before := ⟨['\t', ' '], by decide⟩
                  word := ['A', 's']
                  after := ⟨[' ', '\n'], by decide⟩
                  given := ⟨"Weg".toList, by decide, by decide⟩
                  before_ne_nil := by decide
                  word_eq := by decide
                  after_ne_nil := by decide } }
          after := ⟨[], by decide⟩ }
      others :=
        [{ before := ⟨[' '], by decide⟩
           clause := ⟨⟨false, [], ⟨"Message".toList, by decide, by decide⟩⟩, none⟩
           after := ⟨[], by decide⟩ }]
      trailing? := some ⟨['\n'], by decide⟩ }
  tail := ⟨[], by decide⟩
  closed := true
  apart := by decide

theorem class_imports_read_group :
    mailImports.text = "use \\App\\\x7b\n\tMail\\Straße\t As \nWeg, Message,\n\x7d;".toList ∧
      (∀ imports, mailImports.ReadInto imports) ∧
      mailImports.target? "Weg" = some "App\\Mail\\Straße" ∧
      mailImports.target? "Message" = some "App\\Message" := by
  have hexact : ∀ c ∈ mailImports.clauses, c.Exact := by
    refine List.forall_mem_cons.mpr ⟨⟨by decide +kernel, ?_⟩,
      List.forall_mem_singleton.mpr ⟨by decide +kernel, ?_⟩⟩
    · rintro a ⟨rfl⟩
      exact ⟨by decide +kernel, by decide +kernel, by decide +kernel⟩
    · rintro a ⟨⟩
  have hgroup : ∀ group ∈ mailImports.group?, group.text.head?.any isBlank = false := by
    rintro group ⟨rfl⟩
    decide +kernel
  refine ⟨by decide +kernel, (class_imports_read mailImports ?_ hgroup).1 hexact, by decide +kernel,
    by decide +kernel⟩
  rintro ⟨⟩

/-- With tabs around it the word is not found, and a letter with a longer small form moves the
cut. -/
theorem alias_misread :
    Imports.addStatement ∅ "use Foo\\Bar as Baz;".toList = .ok (.ofList [("Baz", "Foo\\Bar")]) ∧
      Imports.addStatement ∅ "use Foo\\Bar\tas\tBaz;".toList =
        .ok (.ofList [("Bar\tas\tBaz", "Foo\\Bar\tas\tBaz")]) ∧
      Imports.addStatement ∅ "use App\\İ as City;".toList = .ok (.ofList [("ity", "App\\İ")]) := by
  decide +kernel

end UseStatement

end SignatureInference.Php
