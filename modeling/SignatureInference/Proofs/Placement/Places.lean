import SignatureInference.Proofs.Placement.Located

/-! # The place of a type in the source

The place of an instruction is found in the masked source. It lies between characters of the source
too, in the body of the class that is meant: the type of a result comes right behind the parenthesis
that closes the parameters, the type of a parameter right in front of a variable between the
parentheses.
-/
namespace SignatureInference

namespace Source

open Text

/-! ## Matching parentheses -/

/-- Every parenthesis in a text has its partner in the text. -/
def Balanced (inner : List Char) : Prop :=
  inner.count '(' = inner.count ')' ∧ ∀ u v, inner = u ++ v → u.count ')' ≤ u.count '('

/-- The parentheses at two offsets match: what stands between them is balanced. -/
def Matching (text : List Char) (start stop : Nat) : Prop :=
  ∃ l inner r, text = l ++ '(' :: (inner ++ ')' :: r) ∧ byteLength l = start ∧
    byteLength l + 1 + byteLength inner = stop ∧ Balanced inner

theorem exists_of_closingFrom {depth pos stop : Nat} {cs : List Char} (hdepth : 0 < depth)
    (h : closingFrom '(' ')' depth pos cs = some stop) :
    ∃ inner r, cs = inner ++ ')' :: r ∧ pos + byteLength inner = stop ∧
      inner.count ')' + 1 = inner.count '(' + depth ∧
      ∀ u v, inner = u ++ v → u.count ')' < u.count '(' + depth := by
  induction cs generalizing depth pos with
  | nil => cases h
  | cons c cs ih =>
    -- the search goes on behind `c`, at a depth that the count of `c` explains
    have hgo {depth' : Nat} (hdepth' : 0 < depth')
        (hc : [c].count ')' + depth' = [c].count '(' + depth)
        (h : closingFrom '(' ')' depth' (pos + c.utf8Size) cs = some stop) :
        ∃ inner r, c :: cs = inner ++ ')' :: r ∧ pos + byteLength inner = stop ∧
          inner.count ')' + 1 = inner.count '(' + depth ∧
          ∀ u v, inner = u ++ v → u.count ')' < u.count '(' + depth := by
      obtain ⟨inner, r, rfl, hstop, hcount, hprefix⟩ := ih hdepth' h
      have hcons (d : Char) (u : List Char) : (c :: u).count d = [c].count d + u.count d := by
        rw [← List.count_append, List.singleton_append]
      refine ⟨c :: inner, r, rfl, by rw [byteLength_cons]; omega, ?_, ?_⟩
      · rw [hcons ')' inner, hcons '(' inner]
        omega
      · intro u v he
        cases u with
        | nil => simpa using hdepth
        | cons d u =>
          obtain ⟨rfl, htail⟩ := List.cons.inj he
          have := hprefix u v htail
          rw [hcons ')' u, hcons '(' u]
          omega
    rw [closingFrom] at h
    split at h
    · next hc => exact hgo (Nat.succ_pos depth) (by simp [hc]; omega) h
    · next hopen =>
      split at h
      · next hc =>
        split at h
        · cases h
          refine ⟨[], cs, by rw [hc]; rfl, rfl, by simp; omega, fun u v he => ?_⟩
          obtain ⟨rfl, -⟩ := List.append_eq_nil_iff.mp he.symm
          simpa using hdepth
        · exact hgo (by omega) (by simp [hc]; omega) h
      · next hclose => exact hgo hdepth (by simp [hopen, hclose]) h

theorem matching_of_findClosing {text : List Char} {start stop : Nat} (hopen : HasAt text start '(')
    (h : findClosing text start = some stop) : Matching text start stop := by
  obtain ⟨l, r, rfl, rfl⟩ := hopen
  rw [findClosing_eq rfl, closingFrom, if_pos rfl] at h
  obtain ⟨inner, r', rfl, hstop, hcount, hprefix⟩ := exists_of_closingFrom (by omega) h
  refine ⟨l, inner, r', rfl, rfl, hstop, by omega, fun u v he => ?_⟩
  have := hprefix u v he
  omega

end Source

namespace Placement

open Text Source

/-! ## The place of an instruction -/

def isNamed (name : ClassName) (c : ClassSpan) : Bool :=
  sameIgnoringAsciiCase c.namespaceName name.namespaceName &&
    sameIgnoringAsciiCase c.name name.shortName

theorem theClass_eq_ok {classes : List ClassSpan} {name : ClassName} {c : ClassSpan} :
    theClass classes name = .ok c ↔ classes.filter (isNamed name) = [c] := by
  have hnamed : isNamed name = fun c => sameIgnoringAsciiCase c.namespaceName name.namespaceName &&
      sameIgnoringAsciiCase c.name name.shortName := rfl
  rw [theClass, hnamed]
  split
  · next d hd =>
    rw [hd]
    simp
  · next hd =>
    rw [hd]
    simp
  · next hseveral _ =>
    constructor
    · intro h
      cases h
    · intro h
      exact absurd h (hseveral c)

/-- Where the type of an instruction goes in a source. The class is the only one with its name and
the method is the first one with its name. -/
def Belongs (source : List Char) (i : Instruction) (p : Nat) : Prop :=
  ∃ c methods f close,
    (classSpans (mask source)).filter (isNamed i.className) = [c] ∧
    methodSpans (mask source) c = .ok methods ∧
    methods.find? (fun f => sameIgnoringAsciiCase f.name i.function) = some f ∧
    HasAt source f.paramsOpen '(' ∧ HasAt source close ')' ∧
    Matching (mask source) f.paramsOpen close ∧
    c.bodyStart ≤ p ∧ p ≤ c.bodyStop ∧ isBoundary source p = true ∧
    match i.target with
    | .result => p = close + 1
    | .parameter _ => f.paramsOpen < p ∧ p < close ∧ beginsVariable (dropBytes p source) = true

theorem Belongs.isBoundary {source : List Char} {i : Instruction} {p : Nat}
    (h : Belongs source i p) :
    isBoundary source p = true := by
  obtain ⟨c, methods, f, close, -, -, -, -, -, -, -, -, hboundary, -⟩ := h
  exact hboundary

theorem exists_of_placeBetween {masked : List Char} {paramsOpen close index p : Nat}
    (hmatching : Matching masked paramsOpen close)
    (h : placeBetween masked paramsOpen close (.parameter index) = .ok p) :
    ∃ x rest, masked = x ++ rest ∧ byteLength x = p ∧ beginsVariable rest = true ∧
      paramsOpen < p ∧ p < close := by
  obtain ⟨l, inner, r, rfl, rfl, rfl, -⟩ := hmatching
  have hone : '('.utf8Size = 1 := by decide
  have hlen : byteLength (l ++ ['(']) = byteLength l + 1 := by simp [hone]
  rw [placeBetween, List.append_cons, takeBytes_dropBytes hlen rfl] at h
  obtain ⟨flat, lead, rest, rfl, rfl, -, hrest, -⟩ := exists_of_parameterOffset h
  obtain ⟨v, hv, z, rfl⟩ := beginsVariable_iff.mp hrest
  have hpos : 0 < byteLength (v ++ z) := by
    refine byteLength_pos ?_
    rintro hnil
    rw [hnil] at hrest
    revert hrest
    decide
  refine ⟨l ++ '(' :: (flat ++ lead), v ++ (z ++ ')' :: r), by simp, ?_, ?_, by omega, ?_⟩
  · simp only [byteLength_append, byteLength_cons, hone]
    omega
  · exact beginsVariable_iff.mpr ⟨v, hv, z ++ ')' :: r, rfl⟩
  · simp only [byteLength_append] at hpos ⊢
    omega

/-- The place that is found in the masked source is the place of the type in the source. -/
theorem belongs_of_placeIn {source : List Char} {i : Instruction} {p : Nat}
    (h : placeIn (mask source) i = .ok (.ok p)) : Belongs source i p := by
  obtain ⟨c, methods, f, close, hc, hm, hf, hopen, hclose, hplace⟩ := exists_of_placeIn h
  obtain ⟨k, hstart, -, hstop, -⟩ := hasAt_of_mem_classSpans (mem_of_theClass hc)
  obtain ⟨hparen, hlt⟩ := hasAt_of_findClosing hopen rfl hclose
  have hmatching := matching_of_findClosing hopen hclose
  have hsource := hasAt_of_mask (by decide) hparen
  obtain ⟨hfirst, hlast⟩ := bounds_of_mem_functionSpansFrom hm (List.mem_of_find?_eq_some hf)
  have hinside : close < c.bodyStop := by
    refine lt_of_le_of_ne (hlast close hclose) ?_
    rintro rfl
    exact absurd (hparen.unique hstop) (by decide)
  refine ⟨c, methods, f, close, theClass_eq_ok.mp hc, hm, hf,
    hasAt_of_mask (by decide) hopen, hsource, hmatching, ?_⟩
  cases htarget : i.target with
  | result =>
    rw [htarget, placeBetween] at hplace
    split at hplace
    · cases hplace
    · cases hplace
      exact ⟨by omega, by omega, hsource.isBoundary_succ (by decide), rfl⟩
  | parameter index =>
    rw [htarget] at hplace
    obtain ⟨x, rest, hmasked, rfl, hrest, hopens, hcloses⟩ :=
      exists_of_placeBetween hmatching hplace
    obtain ⟨v, hv, z, rfl⟩ := beginsVariable_iff.mp hrest
    have hvisible : v ≠ [] ∧ ∀ d ∈ v, d ≠ ' ' := by
      simp only [List.mem_cons, List.not_mem_nil, or_false] at hv
      rcases hv with rfl | rfl | rfl <;> simp
    obtain ⟨u, w, rfl, hlen⟩ := exists_append_of_mask hvisible.1 hvisible.2 hmasked
    refine ⟨by omega, by omega, ?_, hopens, hcloses, ?_⟩
    · rw [← hlen]
      exact isBoundary_byteLength u (v ++ w)
    · rw [← hlen, dropBytes_byteLength]
      exact beginsVariable_iff.mpr ⟨v, hv, w, rfl⟩

end Placement
end SignatureInference
