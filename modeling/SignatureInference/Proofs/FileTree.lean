import SignatureInference.FileTree
import SignatureInference.Proofs.SortedMap

/-! # Writing and reading back

In a well-formed file system a file that can be read can be written. Then the new text is read from
every path that leads to the file, and every other path leads to what it did before.
-/
namespace SignatureInference

namespace FileTree

/-- The working directory is there, and whatever is there is in a directory. -/
def WellFormed (t : FileTree) : Prop :=
  t.node? t.base = some .directory ∧
    ∀ e ∈ t.nodes.entries, t.node? e.1.dropLast = some .directory

instance (t : FileTree) : Decidable t.WellFormed := inferInstanceAs (Decidable (_ ∧ _))

variable {t : FileTree}

theorem WellFormed.above (h : t.WellFormed) {place : List String} {node : Node}
    (hnode : t.node? place = some node) : t.node? place.dropLast = some .directory := by
  unfold node? at hnode
  split at hnode
  · next hroot => simp [hroot, node?]
  · exact h.2 _ (SortedMap.mem_of_lookup hnode)

/-! ## Following a path -/

/-- Whether something is at a place, and if so whether it is a directory. -/
def isDirectory? (t : FileTree) (place : List String) : Option Bool :=
  (t.node? place).map fun
    | .directory => true
    | .file _ => false

def step (t : FileTree) (place : List String) (c : Component) : Except FileError (List String) :=
  match t.isDirectory? place with
  | none => .error .missing
  | some false => .error .notDirectory
  | some true =>
    match c with
    | .root => .ok []
    | .here => .ok place
    | .up => .ok place.dropLast
    | .name s =>
      if (t.isDirectory? (place ++ [s])).isSome then .ok (place ++ [s]) else .error .missing

theorem follow_cons (place : List String) (c : Component) (cs : List Component) :
    t.follow place (c :: cs) = t.step place c >>= fun q => t.follow q cs := by
  unfold step isDirectory?
  conv_lhs => unfold follow
  cases t.node? place with
  | none => rfl
  | some node =>
    cases node with
    | file _ => rfl
    | directory =>
      cases c with
      | name s =>
        simp only [Option.map_some, Option.isSome_map]
        split <;> rfl
      | _ => rfl

theorem follow_append (place : List String) (xs ys : List Component) :
    t.follow place (xs ++ ys) = t.follow place xs >>= fun q => t.follow q ys := by
  induction xs generalizing place with
  | nil => rfl
  | cons c xs ih =>
    rw [List.cons_append, follow_cons, follow_cons]
    cases t.step place c with
    | error e => rfl
    | ok q => exact ih q

theorem follow_singleton (place : List String) (c : Component) :
    t.follow place [c] = t.step place c := by
  rw [follow_cons]
  cases t.step place c <;> rfl

theorem node?_of_isDirectory? {place : List String} (h : t.isDirectory? place = some true) :
    t.node? place = some .directory := by
  unfold isDirectory? at h
  cases hnode : t.node? place with
  | none =>
    rw [hnode] at h
    cases h
  | some node =>
    cases node with
    | directory => rfl
    | file c =>
      rw [hnode] at h
      cases h

theorem step_cases (hwf : t.WellFormed) {place q : List String} {c : Component}
    (h : t.step place c = .ok q) :
    t.node? place = some .directory ∧
      (t.node? q = some .directory ∨ ∃ s, c = .name s ∧ q = place ++ [s]) := by
  unfold step at h
  split at h
  · cases h
  · cases h
  · next hkind =>
    have hplace := node?_of_isDirectory? hkind
    refine ⟨hplace, ?_⟩
    cases c with
    | root =>
      cases h
      exact .inl rfl
    | here =>
      cases h
      exact .inl hplace
    | up =>
      cases h
      exact .inl (hwf.above hplace)
    | name s =>
      simp only at h
      split at h
      · cases h
        exact .inr ⟨s, rfl, rfl⟩
      · cases h

theorem resolve_eq (p : Path) :
    t.resolve p =
      if p.text = "" then .error .missing
      else t.follow t.base p.components >>= fun place =>
        if t.isDirectory? place = some false ∧ Text.endsWith ['/'] p.text.toList = true then
          .error .notDirectory
        else .ok place := by
  unfold resolve isDirectory?
  by_cases hempty : p.text = ""
  · simp [hempty, bind, Except.bind, throw, throwThe, MonadExceptOf.throw]
  · simp only [beq_iff_eq, hempty, if_false]
    cases t.follow t.base p.components with
    | error e => rfl
    | ok place =>
      simp only [bind, Except.bind]
      cases t.node? place with
      | none => rfl
      | some node =>
        cases node with
        | directory => rfl
        | file c => simp [throw, throwThe, MonadExceptOf.throw, pure, Except.pure]

theorem resolve_eq_ok {p : Path} {place : List String} :
    t.resolve p = .ok place ↔ p.text ≠ "" ∧ t.follow t.base p.components = .ok place ∧
      ¬(t.isDirectory? place = some false ∧ Text.endsWith ['/'] p.text.toList = true) := by
  rw [resolve_eq]
  by_cases hempty : p.text = ""
  · simp [hempty]
  · rw [if_neg hempty]
    cases t.follow t.base p.components with
    | error e => simp [bind, Except.bind]
    | ok found =>
      simp only [bind, Except.bind, ne_eq, hempty, not_false_eq_true, true_and, Except.ok.injEq]
      constructor
      · intro h
        split at h
        · cases h
        · next hslash =>
          cases h
          exact ⟨rfl, hslash⟩
      · rintro ⟨rfl, hslash⟩
        rw [if_neg hslash]

theorem follow_of_resolve {p : Path} {place : List String} (h : t.resolve p = .ok place) :
    t.follow t.base p.components = .ok place := (resolve_eq_ok.mp h).2.1

/-- Paths with the same components lead to the same place, if they lead anywhere. -/
theorem resolve_unique {p q : Path} {place place' : List String} (hpq : q.components = p.components)
    (hp : t.resolve p = .ok place) (hq : t.resolve q = .ok place') : place' = place := by
  have hq := follow_of_resolve hq
  rw [hpq, follow_of_resolve hp] at hq
  exact (Except.ok.inj hq).symm

section

variable {u : FileTree} (hbase : t.base = u.base) (hshape : t.isDirectory? = u.isDirectory?)

include hshape

theorem follow_congr (place : List String) (cs : List Component) :
    t.follow place cs = u.follow place cs := by
  induction cs generalizing place with
  | nil => rfl
  | cons c cs ih =>
    have hstep : t.step place c = u.step place c := by
      unfold step
      rw [hshape]
    rw [follow_cons, follow_cons, funext ih, hstep]

include hbase

theorem resolve_congr (p : Path) : t.resolve p = u.resolve p := by
  rw [resolve_eq, resolve_eq, hbase, follow_congr hshape, hshape]

end

/-! ## Texts of files -/

def textAt (t : FileTree) (place : List String) : Except FileError String :=
  match t.node? place with
  | none => .error .missing
  | some .directory => .error .isDirectory
  | some (.file (.text s)) => .ok s
  | some (.file (.binary _)) => .error .notText

theorem readText_eq (p : Path) : t.readText p = t.resolve p >>= t.textAt := by
  unfold readText read lookup textAt
  cases t.resolve p with
  | error e => rfl
  | ok place =>
    simp only [bind, Except.bind]
    cases t.node? place with
    | none => rfl
    | some node =>
      cases node with
      | directory => rfl
      | file c => cases c <;> rfl

theorem textAt_eq_ok {place : List String} {s : String} :
    t.textAt place = .ok s ↔ t.node? place = some (.file (.text s)) := by
  unfold textAt
  split <;> simp_all

theorem exists_of_readText {p : Path} {s : String} (h : t.readText p = .ok s) :
    ∃ place, t.resolve p = .ok place ∧ t.node? place = some (.file (.text s)) := by
  rw [readText_eq] at h
  cases hresolve : t.resolve p with
  | error e =>
    rw [hresolve] at h
    cases h
  | ok place =>
    rw [hresolve] at h
    exact ⟨place, rfl, textAt_eq_ok.mp h⟩

theorem readText_unique {p q : Path} {s s' : String}
    (hpq : q.components = p.components) (hp : t.readText p = .ok s) (hq : t.readText q = .ok s') :
    s' = s := by
  obtain ⟨place, hplace, hfile⟩ := exists_of_readText hp
  obtain ⟨place', hplace', hfile'⟩ := exists_of_readText hq
  have hsame : place' = place := resolve_unique hpq hplace hplace'
  rw [hsame, hfile] at hfile'
  cases hfile'
  rfl

theorem resolveNew_of_resolve (hwf : t.WellFormed) {p : Path} {place : List String} {c : Contents}
    (h : t.resolve p = .ok place) (hfile : t.node? place = some (.file c)) :
    t.resolveNew p = .ok place := by
  have hkind : t.isDirectory? place = some false := by rw [isDirectory?, hfile]; rfl
  rw [resolve_eq] at h
  split at h
  · cases h
  · cases hfollow : t.follow t.base p.components with
    | error e =>
      rw [hfollow] at h
      cases h
    | ok q =>
      rw [hfollow] at h
      simp only [bind, Except.bind] at h
      split at h
      · cases h
      · next hslash =>
        cases h
        rcases List.eq_nil_or_concat' p.components with hnil | ⟨init, last, hlast⟩
        · -- the path would lead to the working directory
          rw [hnil] at hfollow
          cases hfollow
          rw [hwf.1] at hfile
          cases hfile
        · rw [hlast, follow_append] at hfollow
          cases hparent : t.follow t.base init with
          | error e =>
            rw [hparent] at hfollow
            cases hfollow
          | ok parent =>
            rw [hparent] at hfollow
            have hstep : t.step parent last = .ok place :=
              (follow_singleton parent last).symm.trans hfollow
            obtain ⟨hdirectory, hplace | ⟨s, rfl, rfl⟩⟩ := step_cases hwf hstep
            · rw [hfile] at hplace
              cases hplace
            · have hend : Text.endsWith ['/'] p.text.toList = false := by simpa [hkind] using hslash
              unfold resolveNew
              rw [hlast, List.getLast?_concat, List.dropLast_concat]
              simp only [hparent, bind, Except.bind, hdirectory, hend]
              rfl

theorem node?_insert {place : List String} (hplace : place ≠ []) (node : Node) (q : List String) :
    ({ t with nodes := t.nodes.insert place node } : FileTree).node? q =
      if q = place then some node else t.node? q := by
  unfold node?
  by_cases hq : q = []
  · rw [if_pos hq, if_neg (by rw [hq]; exact hplace.symm), if_pos hq]
  · rw [if_neg hq, if_neg hq]
    exact SortedMap.get?_insert _ _ _ _

section

variable {place : List String} {old new : Contents} (hfile : t.node? place = some (.file old))

include hfile

theorem ne_root_of_file : place ≠ [] := by
  rintro rfl
  cases hfile

theorem isDirectory?_overwrite :
    ({ t with nodes := t.nodes.insert place (.file new) } : FileTree).isDirectory? =
      t.isDirectory? := by
  funext q
  unfold isDirectory?
  rw [node?_insert (ne_root_of_file hfile)]
  split
  · next hq => rw [hq, hfile]; rfl
  · rfl

theorem WellFormed.overwrite (hwf : t.WellFormed) :
    ({ t with nodes := t.nodes.insert place (.file new) } : FileTree).WellFormed := by
  have hroot := ne_root_of_file hfile
  have hdirectory {q : List String} (hq : t.node? q = some .directory) :
      ({ t with nodes := t.nodes.insert place (.file new) } : FileTree).node? q =
        some .directory := by
    rw [node?_insert hroot, if_neg ?_, hq]
    rintro rfl
    rw [hfile] at hq
    cases hq
  refine ⟨hdirectory hwf.1, fun e he => hdirectory ?_⟩
  rcases SortedMap.mem_place he with hplace | he
  · rw [hplace]
    exact hwf.above hfile
  · exact hwf.2 e he

theorem resolve_overwrite (q : Path) :
    ({ t with nodes := t.nodes.insert place (.file new) } : FileTree).resolve q = t.resolve q := by
  refine resolve_congr ?_ (isDirectory?_overwrite hfile) q
  rfl

theorem readText_overwrite (s : String) (q : Path) :
    ({ t with nodes := t.nodes.insert place (.file (.text s)) } : FileTree).readText q =
      if t.resolve q = .ok place then .ok s else t.readText q := by
  have hroot := ne_root_of_file hfile
  rw [readText_eq, readText_eq, resolve_overwrite hfile]
  cases t.resolve q with
  | error e => rfl
  | ok r =>
    change textAt _ r = if _ then _ else textAt _ r
    unfold textAt
    rw [node?_insert hroot]
    by_cases hr : r = place
    · simp [hr]
    · simp [hr]

end

theorem write_eq_ok {u : FileTree} {p : Path} {c : Contents} :
    t.write p c = .ok u ↔ ∃ place, t.resolveNew p = .ok place ∧ t.node? place ≠ some .directory ∧
      u = { t with nodes := t.nodes.insert place (.file c) } := by
  unfold write
  cases t.resolveNew p with
  | error e => simp [bind, Except.bind]
  | ok place =>
    simp only [bind, Except.bind, Except.ok.injEq, exists_eq_left']
    split
    · next hdirectory => simp [hdirectory, throw, throwThe, MonadExceptOf.throw]
    · next hfile =>
      constructor
      · intro h
        cases h
        exact ⟨hfile, rfl⟩
      · rintro ⟨-, rfl⟩
        rfl

theorem write_of_resolve (hwf : t.WellFormed) {p : Path} {place : List String} {old : Contents}
    (hresolve : t.resolve p = .ok place) (hfile : t.node? place = some (.file old))
    (new : Contents) :
    t.write p new = .ok { t with nodes := t.nodes.insert place (.file new) } := by
  refine write_eq_ok.mpr ⟨place, resolveNew_of_resolve hwf hresolve hfile, ?_, rfl⟩
  rw [hfile]
  simp

/-- A file that can be read can be written, and only what is read from this file changes. -/
theorem exists_write (hwf : t.WellFormed) {p : Path} {old : String} (h : t.readText p = .ok old)
    (new : String) :
    ∃ u, t.write p (.text new) = .ok u ∧ u.WellFormed ∧ u.readText p = .ok new ∧
      ∀ q, u.readText q = t.readText q ∨ t.readText q = .ok old ∧ u.readText q = .ok new := by
  obtain ⟨place, hresolve, hfile⟩ := exists_of_readText h
  refine ⟨_, write_of_resolve hwf hresolve hfile _, hwf.overwrite hfile, ?_, fun q => ?_⟩
  · rw [readText_overwrite hfile, if_pos hresolve]
  · rw [readText_overwrite hfile]
    split
    · next hq =>
      refine .inr ⟨?_, rfl⟩
      rw [readText_eq, hq]
      exact textAt_eq_ok.mpr hfile
    · exact .inl rfl

end FileTree

end SignatureInference
