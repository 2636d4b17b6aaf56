import SignatureInference.Proofs.FileTree
import SignatureInference.Proofs.Text.Lowercase
import SignatureInference.Proofs.Text.Splitting

/-! # Files of one directory

A path into a directory leads to the same place as long as no directory is removed. What is done
with the files of the directory therefore depends only on what is at their places.
-/
namespace SignatureInference

namespace Path

/-- A name that is a step of its own. -/
def isName (name : String) : Bool :=
  name.toList.all (· != '/') && name != "" && name != "." && name != ".."

/-- The steps that the names of a text stand for. -/
def stepsOf (cs : List Char) : List Component :=
  (((Text.splitWhere (· == '/') cs).map String.ofList).filter fun s => s != "" && s != ".").map
    fun s => if s == ".." then .up else .name s

def leadOf (cs : List Char) : List Component :=
  if Text.startsWith ['/'] cs then [.root]
  else if ((Text.splitWhere (· == '/') cs).map String.ofList).head? == some "." then [.here]
  else []

theorem components_eq (p : Path) :
    p.components = leadOf p.text.toList ++ stepsOf p.text.toList := by
  simp only [components, leadOf, stepsOf]
  split
  · rfl
  · split <;> rfl

theorem stepsOf_append (u z : List Char) : stepsOf (u ++ '/' :: z) = stepsOf u ++ stepsOf z := by
  unfold stepsOf
  rw [Text.splitWhere_append rfl, List.map_append, List.filter_append, List.map_append]

theorem leadOf_append {u : List Char} (hu : u ≠ []) (z : List Char) :
    leadOf (u ++ '/' :: z) = leadOf u := by
  have hstart : Text.startsWith ['/'] (u ++ '/' :: z) = Text.startsWith ['/'] u := by
    rw [Text.startsWith, Text.startsWith, Text.dropHead?_singleton_append _ hu, Option.isSome_map]
  have hhead : ((Text.splitWhere (· == '/') (u ++ '/' :: z)).map String.ofList).head? =
      ((Text.splitWhere (· == '/') u).map String.ofList).head? := by
    rw [Text.splitWhere_append rfl, List.map_append, List.head?_append_of_ne_nil]
    simp [Text.splitWhere_ne_nil]
  unfold leadOf
  rw [hstart, hhead]

variable {name : String}

theorem splitWhere_of_isName (hname : isName name = true) :
    Text.splitWhere (· == '/') name.toList = [name.toList] := by
  refine Text.splitWhere_of_not_mem fun c hc => ?_
  simp only [isName, Bool.and_eq_true, List.all_eq_true] at hname
  simpa using hname.1.1.1 c hc

theorem stepsOf_of_isName (hname : isName name = true) : stepsOf name.toList = [.name name] := by
  rw [stepsOf, splitWhere_of_isName hname]
  simp only [isName, Bool.and_eq_true, bne_iff_ne] at hname
  simp [hname.1.1.2, hname.1.2, hname.2]

theorem startsWith_of_isName (hname : isName name = true) :
    Text.startsWith ['/'] name.toList = false := by
  simp only [isName, Bool.and_eq_true, List.all_eq_true] at hname
  rw [Text.startsWith, Option.isSome_eq_false_iff, Option.isNone_iff_eq_none]
  cases hcs : name.toList with
  | nil => rfl
  | cons c cs =>
    have hc : c ≠ '/' := by simpa using hname.1.1.1 c (hcs ▸ List.mem_cons_self)
    simp [Text.dropHead?, hc.symm]

theorem components_join (p : Path) (hname : isName name = true) :
    (p.join name).components = p.components ++ [.name name] := by
  rw [join, startsWith_of_isName hname, if_neg (by decide)]
  split
  · next hempty =>
    have htext : p.text.toList = [] := by rw [beq_iff_eq.mp hempty]; rfl
    have hlead : leadOf name.toList = [] := by
      rw [leadOf, startsWith_of_isName hname, splitWhere_of_isName hname]
      simp only [isName, Bool.and_eq_true, bne_iff_ne] at hname
      simp [hname.1.2]
    rw [components_eq, components_eq, htext, hlead, stepsOf_of_isName hname]
    rfl
  · next hempty =>
    have htext : p.text.toList ≠ [] := by simpa using hempty
    split
    · next hslash =>
      obtain ⟨u, hu⟩ := Text.endsWith_iff.mp hslash
      have hlead : ∀ z z' : List Char, leadOf (u ++ '/' :: z) = leadOf (u ++ '/' :: z') := by
        intro z z'
        by_cases hnil : u = []
        · subst hnil
          rfl
        · rw [leadOf_append hnil, leadOf_append hnil]
      rw [components_eq, components_eq]
      simp only [String.toList_append, ← hu, List.append_assoc, List.singleton_append]
      rw [stepsOf_append, stepsOf_append, hlead name.toList [], stepsOf_of_isName hname]
      have hnil : stepsOf [] = [] := rfl
      rw [hnil, List.append_nil]
    · rw [components_eq, components_eq]
      have hjoined : (p.text ++ "/" ++ name).toList = p.text.toList ++ '/' :: name.toList := by simp
      simp only [hjoined]
      rw [stepsOf_append, leadOf_append htext, stepsOf_of_isName hname, List.append_assoc]

theorem endsWith_join (p : Path) (hname : isName name = true) :
    Text.endsWith ['/'] (p.join name).text.toList = false := by
  have hsuffix : name.toList <:+ (p.join name).text.toList := by
    unfold join
    split
    · exact List.suffix_refl _
    · split
      · exact List.suffix_refl _
      · split
        · rw [String.toList_append]
          exact List.suffix_append _ _
        · rw [String.toList_append]
          exact List.suffix_append _ _
  simp only [isName, Bool.and_eq_true, List.all_eq_true, bne_iff_ne] at hname
  rw [← Bool.not_eq_true, Text.endsWith_iff]
  intro hslash
  have hmem : '/' ∈ name.toList := by
    rcases List.suffix_or_suffix_of_suffix hslash hsuffix with h | h
    · exact h.subset List.mem_cons_self
    · rcases List.suffix_cons_iff.mp h with h | h
      · exact h ▸ List.mem_cons_self
      · exact absurd (List.suffix_nil.mp h) (by simpa using hname.1.1.2)
  exact hname.1.1.1 '/' hmem rfl

end Path

namespace FileTree

/-- A later state of a file system in which all directories are still there. -/
structure Keeps (t u : FileTree) : Prop where
  base : u.base = t.base
  directory : ∀ {place}, t.node? place = some .directory → u.node? place = some .directory

theorem Keeps.refl (t : FileTree) : Keeps t t := ⟨rfl, id⟩

theorem Keeps.trans {t u v : FileTree} (h : Keeps t u) (h' : Keeps u v) : Keeps t v :=
  ⟨h'.base.trans h.base, fun hplace => h'.directory (h.directory hplace)⟩

variable {t u : FileTree}

theorem isDirectory?_of_node? {place : List String} (h : t.node? place = some .directory) :
    t.isDirectory? place = some true := by
  rw [isDirectory?, h]
  rfl

theorem directory_of_follow {place q : List String} {cs : List Component}
    (h : t.follow place cs = .ok q) (hq : t.node? q = some .directory) :
    t.node? place = some .directory := by
  cases cs with
  | nil =>
    cases h
    exact hq
  | cons c cs =>
    rw [follow_cons] at h
    cases hstep : t.step place c with
    | error e =>
      rw [hstep] at h
      cases h
    | ok r =>
      unfold step at hstep
      split at hstep
      · cases hstep
      · cases hstep
      · next hkind => exact node?_of_isDirectory? hkind

theorem Keeps.follow (hkeeps : Keeps t u) {place q : List String} {cs : List Component}
    (h : t.follow place cs = .ok q) (hq : t.node? q = some .directory) :
    u.follow place cs = .ok q := by
  induction cs generalizing place with
  | nil =>
    cases h
    rfl
  | cons c cs ih =>
    have hplace := directory_of_follow h hq
    rw [follow_cons] at h ⊢
    cases hstep : t.step place c with
    | error e =>
      rw [hstep] at h
      cases h
    | ok r =>
      rw [hstep] at h
      have hr := directory_of_follow h hq
      have hstep' : u.step place c = .ok r := by
        unfold step at hstep ⊢
        rw [isDirectory?_of_node? hplace] at hstep
        rw [isDirectory?_of_node? (hkeeps.directory hplace)]
        cases c with
        | name s =>
          simp only at hstep ⊢
          split at hstep
          · cases hstep
            rw [isDirectory?_of_node? (hkeeps.directory hr)]
            rfl
          · cases hstep
        | _ => exact hstep
      rw [hstep']
      exact ih h

/-! ## Making directories -/

/-- Goes one step further, making a directory if nothing is there. -/
def makeStep (state : FileTree × List String) (c : Component) :
    Except FileError (FileTree × List String) :=
  match c with
  | .name s =>
    match state.1.node? (state.2 ++ [s]) with
    | some .directory => .ok (state.1, state.2 ++ [s])
    | some (.file _) => .error .alreadyExists
    | none =>
      .ok ({ state.1 with nodes := state.1.nodes.insert (state.2 ++ [s]) .directory },
        state.2 ++ [s])
  | .here => .ok state
  | .up => .ok (state.1, state.2.dropLast)
  | .root => .ok (state.1, [])

theorem foldl_bind {σ α ε : Type} (f : σ → α → Except ε σ) (xs : List α) (state : Except ε σ) :
    xs.foldl (fun state x => state >>= (f · x)) state = state >>= fun s => xs.foldlM f s := by
  induction xs generalizing state with
  | nil => cases state <;> rfl
  | cons x xs ih =>
    rw [List.foldl_cons, ih]
    cases state with
    | error e => rfl
    | ok s => rfl

theorem makeDirectories_eq (p : Path) :
    t.makeDirectories p = (p.components.foldlM makeStep (t, t.base)).map (·.1) :=
  congrArg (Except.map _) (foldl_bind makeStep p.components (.ok (t, t.base)))

/-- A step leads to a directory of a file system that has all directories it had before. -/
theorem makeStep_ok (hwf : t.WellFormed) {place next : List String} {c : Component}
    (hplace : t.node? place = some .directory) (h : makeStep (t, place) c = .ok (u, next)) :
    u.WellFormed ∧ Keeps t u ∧ u.node? next = some .directory ∧ u.step place c = .ok next := by
  unfold makeStep at h
  cases c with
  | root =>
    cases h
    exact ⟨hwf, .refl t, rfl, by simp [step, isDirectory?_of_node? hplace]⟩
  | here =>
    cases h
    exact ⟨hwf, .refl t, hplace, by simp [step, isDirectory?_of_node? hplace]⟩
  | up =>
    cases h
    exact ⟨hwf, .refl t, hwf.above hplace, by simp [step, isDirectory?_of_node? hplace]⟩
  | name s =>
    simp only at h
    split at h
    · next hnode =>
      cases h
      refine ⟨hwf, .refl t, hnode, ?_⟩
      simp [step, isDirectory?_of_node? hplace, isDirectory?_of_node? hnode]
    · cases h
    · next hnode =>
      cases h
      have hplaced : place ++ [s] ≠ [] := by simp
      have hnew := node?_insert (t := t) hplaced .directory
      have hkeeps : Keeps t { t with nodes := t.nodes.insert (place ++ [s]) .directory } := by
        refine ⟨rfl, fun {q} hq => ?_⟩
        rw [hnew]
        split
        · rfl
        · exact hq
      have hnext := hnew (place ++ [s])
      rw [if_pos rfl] at hnext
      refine ⟨⟨hkeeps.directory hwf.1, fun e he => hkeeps.directory ?_⟩, hkeeps, hnext, ?_⟩
      · rcases SortedMap.mem_place he with hkey | he
        · rw [hkey, List.dropLast_concat]
          exact hplace
        · exact hwf.2 e he
      · simp [step, isDirectory?_of_node? (hkeeps.directory hplace), isDirectory?_of_node? hnext]

/-- Following a path along which directories were made leads to the last of them. -/
theorem follow_of_makeSteps (hwf : t.WellFormed) {place next : List String} {cs : List Component}
    (hplace : t.node? place = some .directory) (h : cs.foldlM makeStep (t, place) = .ok (u, next)) :
    u.WellFormed ∧ Keeps t u ∧ u.node? next = some .directory ∧ u.follow place cs = .ok next := by
  induction cs generalizing t place with
  | nil =>
    cases h
    exact ⟨hwf, .refl _, hplace, rfl⟩
  | cons c cs ih =>
    rw [List.foldlM_cons] at h
    cases hmake : makeStep (t, place) c with
    | error e =>
      rw [hmake] at h
      cases h
    | ok state =>
      obtain ⟨v, q⟩ := state
      rw [hmake] at h
      obtain ⟨hwf', hkeeps, hq, hstep⟩ := makeStep_ok hwf hplace hmake
      obtain ⟨hwf'', hkeeps', hnext, hfollow⟩ := ih hwf' hq h
      refine ⟨hwf'', hkeeps.trans hkeeps', hnext, ?_⟩
      have hfirst := hkeeps'.follow ((follow_singleton place c).trans hstep) hq
      rw [follow_singleton] at hfirst
      rw [follow_cons, hfirst]
      exact hfollow

/-! ## Files of a directory -/

structure Leads (t : FileTree) (p : Path) (place : List String) : Prop where
  follow : t.follow t.base p.components = .ok place
  directory : t.node? place = some .directory

theorem exists_leads_of_makeDirectories (hwf : t.WellFormed) {p : Path}
    (h : t.makeDirectories p = .ok u) : ∃ place, u.Leads p place := by
  rw [makeDirectories_eq] at h
  cases hmake : p.components.foldlM makeStep (t, t.base) with
  | error e =>
    rw [hmake] at h
    cases h
  | ok state =>
    obtain ⟨v, place⟩ := state
    rw [hmake] at h
    cases h
    obtain ⟨-, hkeeps, hplace, hfollow⟩ := follow_of_makeSteps hwf hwf.1 hmake
    exact ⟨place, hkeeps.base ▸ hfollow, hplace⟩

theorem Leads.keeps {p : Path} {place : List String} (h : t.Leads p place) (hkeeps : Keeps t u) :
    u.Leads p place :=
  ⟨hkeeps.base ▸ hkeeps.follow h.follow h.directory, hkeeps.directory h.directory⟩

theorem keeps_insert {place : List String} (hroot : place ≠ [])
    (h : t.node? place ≠ some .directory) (c : Contents) :
    Keeps t { t with nodes := t.nodes.insert place (.file c) } := by
  refine ⟨rfl, fun {q} hq => ?_⟩
  rw [node?_insert hroot, if_neg ?_, hq]
  rintro rfl
  exact h hq

theorem resolve_concat {p : Path} {init : List Component} {name : String} {parent : List String}
    (hp : p.components = init ++ [.name name]) (hslash : Text.endsWith ['/'] p.text.toList = false)
    (hfollow : t.follow t.base init = .ok parent) (hparent : t.node? parent = some .directory) :
    t.resolve p =
      if (t.node? (parent ++ [name])).isSome = true then .ok (parent ++ [name])
      else .error .missing := by
  have htext : p.text ≠ "" := by
    intro hempty
    have hpath : p = ⟨""⟩ := congrArg Path.mk hempty
    have hnil : Path.components ⟨""⟩ = [] := rfl
    rw [hpath, hnil] at hp
    exact absurd hp.symm (by simp)
  have hstep : t.step parent (.name name) =
      if (t.node? (parent ++ [name])).isSome = true then .ok (parent ++ [name])
      else .error .missing := by
    unfold step
    rw [isDirectory?_of_node? hparent]
    simp only [isDirectory?, Option.isSome_map]
  rw [resolve_eq, if_neg htext, hp, follow_append, hfollow]
  by_cases hnode : (t.node? (parent ++ [name])).isSome = true
  · rw [if_pos hnode] at hstep ⊢
    simp [bind, Except.bind, follow_singleton, hstep, hslash]
  · rw [if_neg hnode] at hstep ⊢
    simp [bind, Except.bind, follow_singleton, hstep]

theorem resolveNew_concat {p : Path} {init : List Component} {name : String} {parent : List String}
    (hp : p.components = init ++ [.name name]) (hslash : Text.endsWith ['/'] p.text.toList = false)
    (hfollow : t.follow t.base init = .ok parent) (hparent : t.node? parent = some .directory) :
    t.resolveNew p = .ok (parent ++ [name]) := by
  unfold FileTree.resolveNew
  rw [hp, List.getLast?_concat, List.dropLast_concat]
  simp only [hfollow, bind, Except.bind, hparent, hslash]
  rfl

/-- A file is written in a directory, under the name that its path ends with. -/
theorem exists_of_resolveNew {p : Path} {place : List String} (h : t.resolveNew p = .ok place) :
    ∃ init s parent, p.components = init ++ [.name s] ∧ t.follow t.base init = .ok parent ∧
      t.node? parent = some .directory ∧ Text.endsWith ['/'] p.text.toList = false ∧
      place = parent ++ [s] := by
  unfold resolveNew at h
  split at h
  · next s hlast =>
    obtain ⟨init, hinit⟩ := List.getLast?_eq_some_iff.mp hlast
    rw [hinit, List.dropLast_concat] at h
    cases hfollow : t.follow t.base init with
    | error e =>
      rw [hfollow] at h
      cases h
    | ok parent =>
      rw [hfollow] at h
      simp only [bind, Except.bind] at h
      split at h
      · next hparent =>
        split at h
        · cases h
        · next hslash =>
          cases h
          exact ⟨init, s, parent, hinit, hfollow, hparent, by simpa using hslash, rfl⟩
      · cases h
      · cases h
  · cases h
  · cases h

theorem ne_root_of_resolveNew {p : Path} {place : List String} (h : t.resolveNew p = .ok place) :
    place ≠ [] := by
  obtain ⟨init, s, parent, -, -, -, -, rfl⟩ := exists_of_resolveNew h
  simp

theorem read_of_resolveNew {p : Path} {place : List String} (h : t.resolveNew p = .ok place) :
    t.read p =
      match t.node? place with
      | some (.file c) => .ok c
      | some .directory => .error .isDirectory
      | none => .error .missing := by
  obtain ⟨init, s, parent, hp, hfollow, hparent, hslash, rfl⟩ := exists_of_resolveNew h
  unfold FileTree.read lookup
  rw [resolve_concat hp hslash hfollow hparent]
  cases hnode : t.node? (parent ++ [s]) with
  | none => rfl
  | some node =>
    simp only [Option.isSome_some, if_true, bind, Except.bind, hnode]
    cases node <;> rfl

theorem append_of_resolveNew {p : Path} {place : List String} (h : t.resolveNew p = .ok place)
    {old : String}
    (hold : t.node? place = none ∧ old = "" ∨ t.node? place = some (.file (.text old)))
    (more : String) :
    t.append p more =
      .ok { t with nodes := t.nodes.insert place (.file (.text (old ++ more))) } := by
  unfold FileTree.append
  rw [h]
  rcases hold with ⟨hnode, rfl⟩ | hnode
  · simp only [bind, Except.bind, hnode, String.empty_append]
    rfl
  · simp only [bind, Except.bind, hnode]
    rfl

theorem Keeps.resolveNew (hkeeps : Keeps t u) {p : Path} {place : List String}
    (h : t.resolveNew p = .ok place) : u.resolveNew p = .ok place := by
  obtain ⟨init, s, parent, hp, hfollow, hparent, hslash, rfl⟩ := exists_of_resolveNew h
  exact resolveNew_concat hp hslash (hkeeps.base ▸ hkeeps.follow hfollow hparent)
    (hkeeps.directory hparent)

/-- Writing changes what is at one place, and the path leads there. -/
theorem exists_of_write {p : Path} {c : Contents} (h : t.write p c = .ok u) :
    ∃ place, u.resolve p = .ok place ∧ u.base = t.base ∧
      ∀ q, u.node? q = if q = place then some (.file c) else t.node? q := by
  obtain ⟨place, hnew, hfile, rfl⟩ := write_eq_ok.mp h
  obtain ⟨init, s, parent, hp, hfollow, hparent, hslash, rfl⟩ := exists_of_resolveNew hnew
  have hroot : parent ++ [s] ≠ [] := by simp
  have hkeeps := keeps_insert hroot hfile c
  have hnode := node?_insert (t := t) hroot (.file c)
  refine ⟨parent ++ [s], ?_, rfl, hnode⟩
  rw [resolve_concat hp hslash (hkeeps.base ▸ hkeeps.follow hfollow hparent)
    (hkeeps.directory hparent), hnode, if_pos rfl]
  rfl

theorem follow_of_file {place q : List String} (hfile : t.isDirectory? place = some false)
    {cs : List Component} (h : t.follow place cs = .ok q) : q = place := by
  cases cs with
  | nil =>
    cases h
    rfl
  | cons c cs =>
    rw [follow_cons] at h
    unfold step at h
    rw [hfile] at h
    cases h

section

variable {place : List String} (hroot : place ≠ []) {c : Contents}

include hroot

theorem isDirectory?_insert (q : List String) :
    ({ t with nodes := t.nodes.insert place (.file c) } : FileTree).isDirectory? q =
      if q = place then some false else t.isDirectory? q := by
  rw [isDirectory?, node?_insert hroot]
  split <;> rfl

theorem step_of_insert {start q : List String} {k : Component}
    (h : ({ t with nodes := t.nodes.insert place (.file c) } : FileTree).step start k = .ok q)
    (hq : q ≠ place) : t.step start k = .ok q := by
  unfold step at h ⊢
  simp only [isDirectory?_insert hroot] at h
  by_cases hstart : start = place
  · rw [if_pos hstart] at h
    cases h
  · rw [if_neg hstart] at h
    cases k with
    | root => exact h
    | here => exact h
    | up => exact h
    | name s =>
      by_cases hs : start ++ [s] = place
      · have hsame : q ≠ start ++ [s] := fun heq => hq (heq.trans hs)
        simp only [if_pos hs, Option.isSome_some, if_true] at h
        split at h
        · cases h
        · cases h
        · exact absurd (Except.ok.inj h).symm hsame
      · simp only [if_neg hs] at h
        exact h

theorem follow_of_insert {start q : List String} {cs : List Component}
    (h : ({ t with nodes := t.nodes.insert place (.file c) } : FileTree).follow start cs = .ok q)
    (hq : q ≠ place) : t.follow start cs = .ok q := by
  induction cs generalizing start with
  | nil =>
    cases h
    rfl
  | cons k cs ih =>
    rw [follow_cons] at h ⊢
    cases hstep : ({ t with nodes := t.nodes.insert place (.file c) } : FileTree).step start k with
    | error e =>
      rw [hstep] at h
      cases h
    | ok next =>
      rw [hstep] at h
      have hnext : next ≠ place := by
        intro heq
        refine hq ((follow_of_file ?_ h).trans heq)
        rw [isDirectory?_insert hroot, if_pos heq]
      rw [step_of_insert hroot hstep hnext]
      exact ih h

end

/-- A text that was not just written was there before. -/
theorem readText_of_write {p q : Path} {s s' : String} (hwrite : t.write p (.text s) = .ok u)
    (hread : u.readText q = .ok s') (hne : s' ≠ s) : t.readText q = .ok s' := by
  obtain ⟨place, hnew, hfile, rfl⟩ := write_eq_ok.mp hwrite
  have hroot := ne_root_of_resolveNew hnew
  have hnode := node?_insert (t := t) hroot (.file (.text s))
  obtain ⟨found, hfound, htext⟩ := exists_of_readText hread
  have hother : found ≠ place := by
    rintro rfl
    rw [hnode, if_pos rfl] at htext
    cases htext
    exact hne rfl
  rw [hnode, if_neg hother] at htext
  obtain ⟨hempty, hfollow, hslash⟩ := resolve_eq_ok.mp hfound
  rw [isDirectory?_insert hroot, if_neg hother] at hslash
  have hresolve : t.resolve q = .ok found :=
    resolve_eq_ok.mpr ⟨hempty, follow_of_insert hroot hfollow hother, hslash⟩
  rw [readText_eq, hresolve]
  exact textAt_eq_ok.mpr htext

/-- What can be written depends only on the places of files and directories. -/
theorem write_of_shape {v : FileTree} (hbase : u.base = t.base)
    (hshape : u.isDirectory? = t.isDirectory?) {p : Path} {place : List String} {c d : Contents}
    (hplace : u.resolve p = .ok place) (h : t.write p c = .ok v) :
    u.write p d = .ok { u with nodes := u.nodes.insert place (.file d) } := by
  obtain ⟨found, hnew, hfile, -⟩ := write_eq_ok.mp h
  obtain ⟨init, s, parent, hp, hfollow, hparent, hslash, rfl⟩ := exists_of_resolveNew hnew
  have hfollow' : u.follow u.base init = .ok parent := by
    rw [hbase, follow_congr hshape]
    exact hfollow
  have hparent' : u.node? parent = some .directory := by
    apply node?_of_isDirectory?
    rw [hshape]
    exact isDirectory?_of_node? hparent
  have hsame : parent ++ [s] = place := by
    rw [resolve_concat hp hslash hfollow' hparent'] at hplace
    split at hplace
    · exact Except.ok.inj hplace
    · cases hplace
  refine write_eq_ok.mpr ⟨place, ?_, ?_, rfl⟩
  · rw [resolveNew_concat hp hslash hfollow' hparent', hsame]
  · intro hdirectory
    apply hfile
    apply node?_of_isDirectory?
    rw [hsame, ← hshape]
    exact isDirectory?_of_node? hdirectory

theorem node?_erase {place : List String} (hroot : place ≠ []) (q : List String) :
    ({ t with nodes := t.nodes.erase place } : FileTree).node? q =
      if q = place then none else t.node? q := by
  unfold node?
  by_cases hq : q = []
  · rw [if_pos hq, if_neg (by rw [hq]; exact hroot.symm), if_pos hq]
  · rw [if_neg hq, if_neg hq]
    exact SortedMap.get?_erase _ _ _

theorem keeps_erase {place : List String} (hroot : place ≠ [])
    (h : t.node? place ≠ some .directory) :
    Keeps t { t with nodes := t.nodes.erase place } := by
  refine ⟨rfl, fun {q} hq => ?_⟩
  rw [node?_erase hroot, if_neg ?_, hq]
  rintro rfl
  exact h hq

section

variable {p : Path} {place : List String} (hleads : t.Leads p place) {name : String}
  (hname : Path.isName name = true)

include hleads hname

theorem Leads.resolveNew : t.resolveNew (p.join name) = .ok (place ++ [name]) :=
  resolveNew_concat (Path.components_join p hname)
    (Path.endsWith_join p hname) hleads.follow hleads.directory

theorem Leads.resolve :
    t.resolve (p.join name) =
      if (t.node? (place ++ [name])).isSome = true then .ok (place ++ [name])
      else .error .missing :=
  resolve_concat (Path.components_join p hname) (Path.endsWith_join p hname) hleads.follow
    hleads.directory

theorem Leads.remove :
    t.remove (p.join name) =
      match t.node? (place ++ [name]) with
      | some (.file _) => .ok { t with nodes := t.nodes.erase (place ++ [name]) }
      | some .directory => .error .isDirectory
      | none => .error .missing := by
  unfold FileTree.remove
  rw [hleads.resolve hname]
  cases hnode : t.node? (place ++ [name]) with
  | none => rfl
  | some node =>
    simp only [Option.isSome_some, if_true, bind, Except.bind, hnode]
    cases node <;> rfl

end

end FileTree
end SignatureInference
