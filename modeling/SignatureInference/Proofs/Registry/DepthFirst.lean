import SignatureInference.Proofs.Registry.Ancestors

/-! # Ancestors in depth-first order

The ancestors of a class are listed in the order of a depth-first visit: a class, then all that is
reached through the class that it extends, then all that is reached through its interfaces, one
after the other, and nothing twice. Whatever a class reaches without passing through classes that
are listed before it stands in one block right behind it.
-/
namespace SignatureInference.Registry

variable (r : Registry)

/-- The edges of a class: to the class that it extends, and then to its interfaces. -/
def edges (c : ClassName) : List ClassName :=
  (r.class? c).elim [] fun info => info.parent.toList ++ info.interfaces

/-- There is an edge from the first class to the second, and the second has not been entered. -/
def Leads (entered : List ClassName) (c d : ClassName) : Prop := d ∈ r.edges c ∧ d ∉ entered

/-- A depth-first visit of the pending classes, given the classes that are entered already, and the
list of those that it enters. Between a class and the next pending one, all that is reached from the
class is visited. -/
inductive Visits : List ClassName → List ClassName → List ClassName → Prop
  | done {entered : List ClassName} : Visits entered [] []
  | pass {entered pending out : List ClassName} {c : ClassName} (hold : c ∈ entered)
      (hrest : Visits entered pending out) : Visits entered (c :: pending) out
  | enter {entered pending up out : List ClassName} {c : ClassName} (hnew : c ∉ entered)
      (hup : Visits (c :: entered) (r.edges c) up)
        (hrest : Visits (up.reverse ++ c :: entered) pending out) :
      Visits entered (c :: pending) (c :: (up ++ out))

theorem above_eq_edges (c : ClassName) : r.above c = r.edges c := by
  unfold above edges
  cases r.class? c <;> rfl

theorem walk_of_mem {entered : List ClassName} {c : ClassName} (h : c ∈ entered)
    (pending : List ClassName) :
    r.walk entered (c :: pending) = r.walk entered pending := by
  rw [walk, if_pos h]

theorem walk_of_not_mem {entered : List ClassName} {c : ClassName} (h : c ∉ entered)
    (pending : List ClassName) :
    r.walk entered (c :: pending) = c :: r.walk (c :: entered) (r.edges c ++ pending) := by
  rw [walk, if_neg h, above_eq_edges]

variable {r} {entered pending out : List ClassName}

/-! ### One visit -/

/-- A visit is what the walk does before it comes to later classes. -/
theorem Visits.walk_append (h : Visits r entered pending out) (later : List ClassName) :
    r.walk entered (pending ++ later) = out ++ r.walk (out.reverse ++ entered) later := by
  induction h generalizing later with
  | done => rfl
  | pass hold hrest ih => rw [List.cons_append, walk_of_mem r hold, ih]
  | enter hnew hup hrest ihup ihrest =>
    rw [List.cons_append, walk_of_not_mem r hnew, ihup, ihrest]
    simp

theorem Visits.eq_walk (h : Visits r entered pending out) : out = r.walk entered pending := by
  have hwalk := h.walk_append []
  rw [List.append_nil, walk, List.append_nil] at hwalk
  exact hwalk.symm

theorem Visits.exists_append {front back : List ClassName}
    (h : Visits r entered (front ++ back) out) :
    ∃ out₁ out₂, out = out₁ ++ out₂ ∧ Visits r entered front out₁ ∧
      Visits r (out₁.reverse ++ entered) back out₂ := by
  induction front generalizing entered out with
  | nil => exact ⟨[], out, rfl, .done, h⟩
  | cons c front ih =>
    cases h with
    | pass hold hrest =>
      obtain ⟨out₁, out₂, rfl, hfront, hback⟩ := ih hrest
      exact ⟨out₁, out₂, rfl, .pass hold hfront, hback⟩
    | @enter _ _ up _ _ hnew hup hrest =>
      obtain ⟨out₁, out₂, rfl, hfront, hback⟩ := ih hrest
      refine ⟨c :: (up ++ out₁), out₂, by simp, .enter hnew hup hfront, ?_⟩
      simpa using hback

theorem visits_walk (entered pending : List ClassName) :
    Visits r entered pending (r.walk entered pending) := by
  fun_induction r.walk entered pending with
  | case1 => exact .done
  | case2 entered c pending hold ih => exact .pass hold ih
  | case3 entered c pending hnew ih =>
    obtain ⟨up, out, hout, hup, hrest⟩ := ih.exists_append
    rw [hout]
    exact .enter hnew (r.above_eq_edges c ▸ hup) hrest

/-! ### What a visit enters -/

theorem Visits.nodup (h : Visits r entered pending out) : (∀ d ∈ out, d ∉ entered) ∧ out.Nodup := by
  induction h with
  | done => simp
  | pass hold hrest ih => exact ih
  | @enter entered pending up out c hnew hup hrest ihup ihrest =>
    obtain ⟨hupNew, hupOnce⟩ := ihup
    obtain ⟨houtNew, houtOnce⟩ := ihrest
    simp only [List.mem_append, List.mem_reverse, List.mem_cons, not_or] at hupNew houtNew
    have hc : c ∉ up ++ out := by
      rw [List.mem_append]
      rintro (h | h)
      · exact (hupNew c h).1 rfl
      · exact (houtNew c h).2.1 rfl
    have hdisjoint : List.Disjoint up out := fun d hd hd' => (houtNew d hd').1 hd
    refine ⟨?_, List.nodup_cons.mpr ⟨hc, hupOnce.append houtOnce hdisjoint⟩⟩
    intro d hd
    rcases List.mem_cons.mp hd with rfl | hd
    · exact hnew
    · rcases List.mem_append.mp hd with hd | hd
      · exact (hupNew d hd).2
      · exact (houtNew d hd).2.2

theorem Leads.mono {entered entered' : List ClassName} (h : entered ⊆ entered') {c d : ClassName}
    (hreach : Relation.ReflTransGen (r.Leads entered') c d) :
    Relation.ReflTransGen (r.Leads entered) c d := by
  have hle : r.Leads entered' ≤ r.Leads entered := fun _ _ hlead =>
    ⟨hlead.1, fun hmem => hlead.2 (h hmem)⟩
  exact Relation.ReflTransGen.mono hle _ _ hreach

/-- What is entered is reached from a pending class without a detour through entered ones. -/
theorem Visits.reached (h : Visits r entered pending out) {d : ClassName} (hd : d ∈ out) :
    ∃ c ∈ pending, c ∉ entered ∧ Relation.ReflTransGen (r.Leads entered) c d := by
  induction h with
  | done => cases hd
  | pass hold hrest ih =>
    obtain ⟨p, hp, hnew, hreach⟩ := ih hd
    exact ⟨p, List.mem_cons_of_mem _ hp, hnew, hreach⟩
  | @enter entered pending up out c hnew hup hrest ihup ihrest =>
    rcases List.mem_cons.mp hd with rfl | hd
    · exact ⟨d, List.mem_cons_self, hnew, .refl⟩
    · rcases List.mem_append.mp hd with hd | hd
      · obtain ⟨p, hp, hpnew, hreach⟩ := ihup hd
        have hlead : r.Leads entered c p := ⟨hp, fun hmem => hpnew (List.mem_cons_of_mem _ hmem)⟩
        exact ⟨c, List.mem_cons_self, hnew,
          .head hlead (Leads.mono (List.subset_cons_self _ _) hreach)⟩
      · obtain ⟨p, hp, hpnew, hreach⟩ := ihrest hd
        have hsub : entered ⊆ up.reverse ++ c :: entered := fun x hx => by simp [hx]
        exact ⟨p, List.mem_cons_of_mem _ hp, fun hmem => hpnew (hsub hmem), Leads.mono hsub hreach⟩

/-- A visit leaves out nothing: the pending classes are entered, and all that edges from them lead
to. -/
theorem Visits.closed (h : Visits r entered pending out) :
    (∀ c ∈ pending, c ∈ entered ∨ c ∈ out) ∧ ∀ c ∈ out, ∀ d ∈ r.edges c, d ∈ entered ∨ d ∈ out := by
  induction h with
  | done => simp
  | pass hold hrest ih =>
    refine ⟨?_, ih.2⟩
    intro p hp
    rcases List.mem_cons.mp hp with rfl | hp
    · exact .inl hold
    · exact ih.1 p hp
  | @enter entered pending up out c hnew hup hrest ihup ihrest =>
    obtain ⟨hupAll, hupClosed⟩ := ihup
    obtain ⟨houtAll, houtClosed⟩ := ihrest
    simp only [List.mem_append, List.mem_reverse, List.mem_cons]
      at hupAll hupClosed houtAll houtClosed ⊢
    refine ⟨?_, ?_⟩
    · rintro p (rfl | hp)
      · exact .inr (.inl rfl)
      · have := houtAll p hp
        tauto
    · rintro p (rfl | hp | hp) d hd
      · have := hupAll d hd
        tauto
      · have := hupClosed p hp d hd
        tauto
      · have := houtClosed p hp d hd
        tauto

/-- Behind a class that is entered stands the visit of what is reached from it. -/
theorem Visits.exists_block (h : Visits r entered pending out) {before after : List ClassName}
    {d : ClassName} (hout : out = before ++ d :: after) :
    ∃ block rest, after = block ++ rest ∧
      Visits r (d :: (before.reverse ++ entered)) (r.edges d) block := by
  induction h generalizing before after with
  | done => simp at hout
  | pass hold hrest ih => exact ih hout
  | @enter entered pending up out c hnew hup hrest ihup ihrest =>
    cases before with
    | nil =>
      obtain ⟨rfl, rfl⟩ := List.cons.inj hout
      exact ⟨up, out, rfl, hup⟩
    | cons e before =>
      obtain ⟨rfl, htail⟩ := List.cons.inj hout
      -- the class is reached from the one that is entered here, or it comes later
      rcases List.append_eq_append_iff.mp htail with ⟨w, rfl, hlater⟩ | ⟨w, hup, hafter⟩
      · obtain ⟨block, rest, rfl, hblock⟩ := ihrest hlater
        exact ⟨block, rest, rfl, by simpa using hblock⟩
      · cases w with
        | nil =>
          obtain ⟨block, rest, rfl, hblock⟩ := @ihrest [] _ hafter.symm
          refine ⟨block, rest, rfl, ?_⟩
          rw [List.append_nil] at hup
          simpa [hup] using hblock
        | cons e' w =>
          obtain ⟨rfl, rfl⟩ := List.cons.inj hafter
          obtain ⟨block, rest, rfl, hblock⟩ := ihup hup
          exact ⟨block, rest ++ out, by simp, by simpa using hblock⟩

/-! ### The ancestors -/

/-- The block behind a class holds what the class reaches without passing through classes before
it. -/
theorem exists_block_of_ancestors {c d : ClassName} {before after : List ClassName}
    (h : r.ancestors c = before ++ d :: after) :
    ∃ block rest, after = block ++ rest ∧
      ∀ x, x ∈ d :: block ↔ Relation.ReflTransGen (r.Leads before) d x := by
  obtain ⟨block, rest, rfl, hblock⟩ := (visits_walk [] [c]).exists_block h
  rw [List.append_nil] at hblock
  refine ⟨block, rest, rfl, fun x => ⟨fun hx => ?_, fun hreach => ?_⟩⟩
  · rcases List.mem_cons.mp hx with rfl | hx
    · exact .refl
    · obtain ⟨p, hp, hnew, hreach⟩ := hblock.reached hx
      simp only [List.mem_cons, List.mem_reverse, not_or] at hnew
      have hsub : before ⊆ d :: before.reverse := fun y hy => by simp [hy]
      exact .head ⟨hp, hnew.2⟩ (Leads.mono hsub hreach)
  · -- no edge leads out of the block, unless to a class before it
    obtain ⟨hall, hclosed⟩ := hblock.closed
    simp only [List.mem_cons, List.mem_reverse] at hall hclosed ⊢
    induction hreach with
    | refl => exact .inl rfl
    | @tail a b _ hlead ih =>
      have hnext : (b = d ∨ b ∈ before) ∨ b ∈ block := by
        rcases ih with rfl | ha
        · exact hall b hlead.1
        · exact hclosed a ha b hlead.1
      have hfree := hlead.2
      tauto

variable (r)

/-- The ancestors of a class are listed depth first: the class comes first, no class is listed
twice, the classes are those that it reaches, and they stand in the order of the depth-first visit;
each one is followed by a block with what it reaches apart from the classes in front of it. -/
theorem ancestors_depth_first (c : ClassName) :
    (r.ancestors c).head? = some c ∧ (r.ancestors c).Nodup ∧
    (∀ d, d ∈ r.ancestors c ↔ Relation.ReflTransGen (fun a b => b ∈ r.edges a) c d) ∧
    (∀ out, Visits r [] [c] out ↔ out = r.ancestors c) ∧
    ∀ before d after, r.ancestors c = before ++ d :: after → ∃ block rest, after = block ++ rest ∧
      ∀ x, x ∈ d :: block ↔ Relation.ReflTransGen (r.Leads before) d x := by
  have hvisits : Visits r [] [c] (r.ancestors c) := visits_walk [] [c]
  refine ⟨?_, hvisits.nodup.2, ?_, ?_, ?_⟩
  · rw [ancestors, walk_of_not_mem r List.not_mem_nil]
    rfl
  · intro d
    have hedges : r.Under = fun a b => b ∈ r.edges a := by
      funext a b
      rw [Under, above_eq_edges]
    rw [mem_ancestors_iff, hedges]
  · intro out
    exact ⟨fun h => h.eq_walk, fun h => h ▸ hvisits⟩
  · intro before d after h
    exact exists_block_of_ancestors h

end SignatureInference.Registry
