/-! # Maps sorted by their keys

A finite map is the list of its entries in increasing order of their keys. Two maps with the same
entries are therefore equal, and listing a map needs no sorting.
-/
namespace SignatureInference

open Std

/-- A finite map from `κ` to `α`. -/
structure SortedMap (κ α : Type) [Ord κ] where
  entries : List (κ × α)
  sorted : entries.Pairwise fun a b => compare a.1 b.1 = .lt

namespace SortedMap

variable {κ α : Type} [Ord κ]

/-- The value of the first entry with the given key. -/
def lookup (k : κ) : List (κ × α) → Option α
  | [] => none
  | e :: es => if compare k e.1 = .eq then some e.2 else lookup k es

/-- Gives the key `k` the value `f` makes of its present one, in a sorted list of entries. -/
def place (k : κ) (f : Option α → α) : List (κ × α) → List (κ × α)
  | [] => [(k, f none)]
  | e :: es =>
    match compare k e.1 with
    | .lt => (k, f none) :: e :: es
    | .eq => (k, f (some e.2)) :: es
    | .gt => e :: place k f es

theorem mem_place {k : κ} {f : Option α → α} {es : List (κ × α)} {e : κ × α}
    (h : e ∈ place k f es) : e.1 = k ∨ e ∈ es := by
  induction es with
  | nil => simp_all [place]
  | cons d ds ih =>
    rw [place] at h
    split at h
    · rcases List.mem_cons.mp h with rfl | h
      · exact .inl rfl
      · exact .inr h
    · rcases List.mem_cons.mp h with rfl | h
      · exact .inl rfl
      · exact .inr (List.mem_cons_of_mem _ h)
    · rcases List.mem_cons.mp h with rfl | h
      · exact .inr List.mem_cons_self
      · exact (ih h).imp id (List.mem_cons_of_mem _)

theorem sorted_place [TransOrd κ] [LawfulEqOrd κ] (k : κ) (f : Option α → α)
    {es : List (κ × α)} (h : es.Pairwise fun a b => compare a.1 b.1 = .lt) :
    (place k f es).Pairwise fun a b => compare a.1 b.1 = .lt := by
  induction es with
  | nil => simp [place]
  | cons d ds ih =>
    have hd : ∀ {e}, e ∈ ds → compare d.1 e.1 = .lt := List.rel_of_pairwise_cons h
    have hds := h.of_cons
    rw [place]
    split
    · next hk =>
      refine List.pairwise_cons.mpr ⟨fun e he => ?_, h⟩
      rcases List.mem_cons.mp he with rfl | he
      · exact hk
      · exact TransCmp.lt_trans hk (hd he)
    · next hk =>
      have : k = d.1 := LawfulEqCmp.eq_of_compare hk
      exact List.pairwise_cons.mpr ⟨fun e he => this ▸ hd he, hds⟩
    · next hk =>
      refine List.pairwise_cons.mpr ⟨fun e he => ?_, ih hds⟩
      rcases mem_place he with he | he
      · exact he ▸ OrientedCmp.lt_of_gt hk
      · exact hd he

def empty : SortedMap κ α := ⟨[], .nil⟩

instance : EmptyCollection (SortedMap κ α) := ⟨empty⟩

instance : Inhabited (SortedMap κ α) := ⟨empty⟩

instance [DecidableEq κ] [DecidableEq α] : DecidableEq (SortedMap κ α) := fun a b =>
  decidable_of_iff (a.entries = b.entries)
    ⟨fun h => by cases a; cases b; simp_all, fun h => h ▸ rfl⟩

instance [Repr κ] [Repr α] : Repr (SortedMap κ α) := ⟨fun m n => reprPrec m.entries n⟩

theorem ext {a b : SortedMap κ α} (h : a.entries = b.entries) : a = b := by
  cases a; cases b; simp_all

def get? (m : SortedMap κ α) (k : κ) : Option α := lookup k m.entries

def contains (m : SortedMap κ α) (k : κ) : Bool := (m.get? k).isSome

/-- The keys in increasing order. -/
def keys (m : SortedMap κ α) : List κ := m.entries.map (·.1)

/-- The values in the order of their keys. -/
def values (m : SortedMap κ α) : List α := m.entries.map (·.2)

def size (m : SortedMap κ α) : Nat := m.entries.length

def isEmpty (m : SortedMap κ α) : Bool := m.entries.isEmpty

def erase (m : SortedMap κ α) (k : κ) : SortedMap κ α :=
  ⟨m.entries.filter fun e => compare k e.1 != .eq, m.sorted.filter _⟩

section

variable [TransOrd κ] [LawfulEqOrd κ]

/-- Gives a key the value that `f` makes of its present one. -/
def alter (m : SortedMap κ α) (k : κ) (f : Option α → α) : SortedMap κ α :=
  ⟨place k f m.entries, sorted_place k f m.sorted⟩

def insert (m : SortedMap κ α) (k : κ) (v : α) : SortedMap κ α := m.alter k fun _ => v

def insertIfNew (m : SortedMap κ α) (k : κ) (v : α) : SortedMap κ α := m.alter k (·.getD v)

/-- The map of a list of entries; of two entries with one key the later one counts. -/
def ofList (es : List (κ × α)) : SortedMap κ α := es.foldl (fun m e => m.insert e.1 e.2) empty

/-- Adds the entries of `b` whose keys are not in `a`. -/
def union (a b : SortedMap κ α) : SortedMap κ α :=
  b.entries.foldl (fun m e => m.insertIfNew e.1 e.2) a

theorem lookup_place [DecidableEq κ] (k l : κ) (f : Option α → α) {es : List (κ × α)}
    (h : es.Pairwise fun a b => compare a.1 b.1 = .lt) :
    lookup l (place k f es) = if l = k then some (f (lookup k es)) else lookup l es := by
  have eq {a b : κ} (h : compare a b = .eq) : a = b := LawfulEqCmp.eq_of_compare h
  induction es with
  | nil =>
    by_cases hl : l = k
    · subst hl; simp [place, lookup]
    · have : ¬ compare l k = .eq := fun h => hl (eq h)
      simp [place, lookup, hl, this]
  | cons d ds ih =>
    have hd : ∀ {e}, e ∈ ds → compare d.1 e.1 = .lt := List.rel_of_pairwise_cons h
    have hk : compare k d.1 = .lt → lookup k (d :: ds) = none := by
      intro hkd
      have none_of : ∀ es : List (κ × α), (∀ e ∈ es, compare k e.1 = .lt) → lookup k es = none := by
        intro es hes
        induction es with
        | nil => rfl
        | cons e es ih =>
          have he := hes e List.mem_cons_self
          simp [lookup, he, ih fun x hx => hes x (List.mem_cons_of_mem _ hx)]
      refine none_of _ fun e he => ?_
      rcases List.mem_cons.mp he with rfl | he
      · exact hkd
      · exact TransCmp.lt_trans hkd (hd he)
    rw [place]
    split
    · next hkd =>
      by_cases hl : l = k
      · subst hl; rw [hk hkd]; simp [lookup]
      · have : ¬ compare l k = .eq := fun h => hl (eq h)
        simp [lookup, hl, this]
    · next hkd =>
      have hkd' := eq hkd
      by_cases hl : l = k
      · subst hl; simp [lookup, hkd]
      · have : ¬ compare l k = .eq := fun h => hl (eq h)
        have : ¬ compare l d.1 = .eq := fun h => hl ((eq h).trans hkd'.symm)
        simp_all [lookup]
    · next hkd =>
      by_cases hl : l = k
      · subst hl
        simp only [lookup, hkd, ih h.of_cons]
        simp
      · simp only [lookup, ih h.of_cons, hl, if_false]

@[simp] theorem get?_alter [DecidableEq κ] (m : SortedMap κ α) (k l : κ) (f : Option α → α) :
    (m.alter k f).get? l = if l = k then some (f (m.get? k)) else m.get? l :=
  lookup_place k l f m.sorted

@[simp] theorem get?_insert [DecidableEq κ] (m : SortedMap κ α) (k l : κ) (v : α) :
    (m.insert k v).get? l = if l = k then some v else m.get? l := by
  simp [insert]

@[simp] theorem get?_insertIfNew [DecidableEq κ] (m : SortedMap κ α) (k l : κ) (v : α) :
    (m.insertIfNew k v).get? l = if l = k then some ((m.get? k).getD v) else m.get? l := by
  simp [insertIfNew]

end

@[simp] theorem get?_empty (k : κ) : (∅ : SortedMap κ α).get? k = none := rfl

end SortedMap

/-- A finite set, listed in increasing order. -/
abbrev SortedSet (κ : Type) [Ord κ] := SortedMap κ Unit

end SignatureInference
