import SignatureInference.DocEvidence
import SignatureInference.Proofs.DocComment
import SignatureInference.Proofs.Lists
import SignatureInference.Proofs.Registry.Observations

/-! # What doc comments add

The comments that count for a method are its own one and, if it has none or asks for them, those of
the same method in the classes above, the nearest first. For each parameter and for the result the
first tag counts. Its names are read in the class that wrote it, while `self` is the class of the
method. All this is taken from the registry as it was before, and nothing but observations is added.
-/
namespace SignatureInference

namespace Registry

/-- Methods stand under their own keys, their classes know them, and their comments are as they were
written. -/
structure Coherent (r : Registry) : Prop where
  key : ∀ k m, r.methods.get? k = some m → keyOf m = k
  owner : ∀ k m, r.methods.get? k = some m →
    ∃ c, r.classes.get? m.className = some c ∧ c.name = m.className ∧
    c.methods.contains m.name = true
  original : ∀ k m doc, r.methods.get? k = some m → m.doc = some doc → doc.Original

def CommentsRead (added : List Addition) : Prop :=
  ∀ a ∈ added, ∀ m ∈ a.method?, ∀ doc ∈ m.doc, ∃ text, doc = .ofText text

theorem coherent_ofAdditions {added : List Addition} (h : CommentsRead added) :
    (ofAdditions added).Coherent := by
  have hgathers := gathers_ofAdditions added
  constructor
  case key =>
    intro k m hm
    exact (hgathers.ofMethod k m hm).1
  case owner =>
    intro k m hm
    obtain ⟨rfl, -⟩ := hgathers.ofMethod k m hm
    have hcontains : (ofAdditions added).methods.contains (keyOf m) = true := by
      rw [SortedMap.contains, hm]
      rfl
    obtain ⟨c, hc, hmethod⟩ := hgathers.class_of_method hcontains
    exact ⟨c, hc, (hgathers.ofClass _ c hc).1, hmethod⟩
  case original =>
    intro k m doc hm hdoc
    have hgiven := (hgathers.ofMethod k m hm).2.doc
    rw [hdoc] at hgiven
    obtain ⟨given, hmem, hsame⟩ := exists_of_firstSaid none Method.doc hgiven.symm (by simp)
    rw [methodsGiven, List.mem_filter, List.mem_filterMap] at hmem
    obtain ⟨⟨a, ha, hmethod⟩, -⟩ := hmem
    obtain ⟨text, rfl⟩ := h a ha given hmethod doc hsame
    exact DocComment.original_ofText text

end Registry

namespace DocEvidence

open Registry (keyOf)

/-! ### The comments that count -/

/-- The comments of the same method in the classes above, the nearest first, each with its class. -/
def commentsAbove (r : Registry) (m : Method) : List (ClassName × DocComment) :=
  ((r.ancestors m.className).drop 1).filterMap fun c =>
    ((r.method? c m.name).bind (·.doc)).map fun doc => (c, doc)

/-- The comments above, if the method has no comment or one that asks for them. -/
def commentsTaken (r : Registry) (m : Method) : List (ClassName × DocComment) :=
  if m.doc.all (·.inherits) then commentsAbove r m else []

/-- The comments that count for a method, each with the class that wrote it. -/
def comments (r : Registry) (m : Method) : List (ClassName × DocComment) :=
  (m.doc.map fun doc => (m.className, doc)).toList ++ commentsTaken r m

/-- The first text that the comments give, with the class that wrote it. -/
def written? (r : Registry) (m : Method) (text? : DocComment → Option String) :
    Option (ClassName × String) :=
  (comments r m).findSome? fun e => (text? e.2).map fun text => (e.1, text)

/-- What a text means for a method of the class `own` if the class `writer` wrote it. -/
def meaning? (r : Registry) (index : Index) (own writer : ClassName) (text : String) :
    Option TypeValue := do
  let owner ← r.class? own
  let scope ← r.class? writer
  DocType.resolve text owner scope index

def documentedResult? (r : Registry) (index : Index) (m : Method) : Option TypeValue :=
  (written? r m (·.returnType)).bind fun w => meaning? r index m.className w.1 w.2

/-- The documented type of a parameter, an unresolved one if there is no tag for it. -/
def documentedParameter (r : Registry) (index : Index) (m : Method) (p : Parameter) : TypeValue :=
  ((written? r m (DocComment.paramText? p.name)).bind fun w =>
    meaning? r index m.className w.1 w.2).getD (.unresolved .docComment)

def HasParamTags (r : Registry) (m : Method) : Prop := ∃ e ∈ comments r m, e.2.params ≠ []

instance (r : Registry) (m : Method) : Decidable (HasParamTags r m) :=
  inferInstanceAs (Decidable (∃ e ∈ comments r m, e.2.params ≠ []))

/-- The argument types that the comments document: those of one call, or nothing. -/
def documentedCalls (r : Registry) (index : Index) (m : Method) : List (List TypeValue) :=
  if m.parameters ≠ [] ∧ HasParamTags r m then [m.parameters.map (documentedParameter r index m)]
  else []

def documented (r : Registry) (index : Index) (m : Method) : Method :=
  { m with
    calls := m.calls ++ documentedCalls r index m
    returns := m.returns ++ (documentedResult? r index m).toList }

/-! ### The effective comment -/

/-- The comment of a method with all the tags that it takes over. -/
def gathered (r : Registry) (m : Method) : DocComment :=
  (m.doc.getD {}).inheritAll (commentsTaken r m)

theorem foldl_eq_inheritAll {f : ClassName → Option DocComment}
    {step : DocComment → ClassName → DocComment}
    (hstep : ∀ doc c, step doc c = ((f c).map fun above => doc.inheritFrom above c).getD doc)
    (cs : List ClassName) (doc : DocComment) :
    cs.foldl step doc = doc.inheritAll (cs.filterMap fun c => (f c).map fun above =>
      (c, above)) := by
  induction cs generalizing doc with
  | nil => rfl
  | cons c cs ih =>
    rw [List.foldl_cons, ih, hstep, List.filterMap_cons]
    cases f c <;> rfl

theorem inherited_eq (r : Registry) (m : Method) (own : DocComment) :
    effectiveDoc?.inherited r m own =
      if (own.inheritAll (commentsAbove r m)).hasTags then some (own.inheritAll (commentsAbove r m))
      else none := by
  rw [effectiveDoc?.inherited, commentsAbove,
    foldl_eq_inheritAll (f := fun c => (r.method? c m.name).bind (·.doc))]
  intro doc c
  cases (r.method? c m.name).bind (·.doc) <;> rfl

theorem effectiveDoc?_cases (r : Registry) (m : Method) :
    effectiveDoc? r m = some (gathered r m) ∨
      effectiveDoc? r m = none ∧ (gathered r m).hasTags = false := by
  have hinherited : ∀ own : DocComment, m.doc.getD {} = own → m.doc.all (·.inherits) = true →
      effectiveDoc? r m = effectiveDoc?.inherited r m own →
      effectiveDoc? r m = some (gathered r m) ∨
        effectiveDoc? r m = none ∧ (gathered r m).hasTags = false := by
    intro own hown hall heq
    rw [heq, inherited_eq, gathered, commentsTaken, if_pos hall, hown]
    split
    · exact .inl rfl
    · next hno => exact .inr ⟨rfl, by simpa using hno⟩
  cases hdoc : m.doc with
  | none =>
    exact hinherited {} (by rw [hdoc]; rfl) (by rw [hdoc]; rfl) (by rw [effectiveDoc?, hdoc])
  | some doc =>
    by_cases hinherits : doc.inherits = true
    · apply hinherited doc (by rw [hdoc]; rfl) (by rw [hdoc]; exact hinherits)
      rw [effectiveDoc?, hdoc]
      exact if_pos hinherits
    · apply Or.inl
      have hall : ¬m.doc.all (·.inherits) = true := by rw [hdoc]; exact hinherits
      rw [effectiveDoc?, hdoc, gathered, commentsTaken, if_neg hall, hdoc]
      exact if_neg hinherits

section

variable {r : Registry} (h : r.Coherent)
include h

theorem of_mem_commentsTaken {m : Method} {e : ClassName × DocComment}
    (he : e ∈ commentsTaken r m) :
    e.2.Original ∧ ∃ scope, r.class? e.1 = some scope := by
  rw [commentsTaken] at he
  split at he
  · rw [commentsAbove, List.mem_filterMap] at he
    obtain ⟨c, -, hc⟩ := he
    rw [Option.map_eq_some_iff] at hc
    obtain ⟨doc, hdoc, rfl⟩ := hc
    obtain ⟨above, habove, hsome⟩ := Option.bind_eq_some_iff.mp hdoc
    have hkey := h.key _ above habove
    obtain ⟨scope, hscope, -⟩ := h.owner _ above habove
    refine ⟨h.original _ above doc habove hsome, scope, ?_⟩
    have hclass : above.className = c := congrArg MethodKey.className hkey
    rw [Registry.class?, ← hclass]
    exact hscope
  · cases he

variable {k : MethodKey} {m : Method} (hm : r.methods.get? k = some m)
include hm

/-- A method's own tags are marked with no class, those taken over with the class that wrote
them. -/
theorem tags_gathered :
    (∀ name, (gathered r m).paramTag? name =
      ((m.doc.bind (DocComment.paramText? name)).map fun text => (text, none)).or
        ((commentsTaken r m).findSome? fun e =>
          (e.2.paramText? name).map fun text => (text, some e.1))) ∧
    (gathered r m).resultTag? =
      ((m.doc.bind (·.returnType)).map fun text => (text, none)).or
        ((commentsTaken r m).findSome? fun e => e.2.returnType.map fun text =>
          (text, some e.1)) := by
  have htaken : ∀ e ∈ commentsTaken r m, e.2.Original := fun e he => (of_mem_commentsTaken h he).1
  rw [gathered]
  constructor
  · intro name
    rw [DocComment.paramTag?_inheritAll htaken]
    congr 1
    cases hdoc : m.doc with
    | none => rfl
    | some doc => exact (h.original k m doc hm hdoc).paramTag?_eq name
  · rw [DocComment.resultTag?_inheritAll htaken]
    congr 1
    cases hdoc : m.doc with
    | none => rfl
    | some doc => exact (h.original k m doc hm hdoc).resultTag?_eq

omit hm in
theorem resolve_written (index : Index) (text? : DocComment → Option String) {owner : ClassInfo}
    (howner : r.class? m.className = some owner) :
    ((((m.doc.bind text?).map fun text => (text, none)).or
        ((commentsTaken r m).findSome? fun e => (text? e.2).map fun text => (text, some e.1))).bind
      fun w => DocType.resolve w.1 owner (tagScope r owner w.2) index) =
    (written? r m text?).bind fun w => meaning? r index m.className w.1 w.2 := by
  have hscope : ∀ e ∈ commentsTaken r m, ∃ scope, r.class? e.1 = some scope :=
    fun e he => (of_mem_commentsTaken h he).2
  have htaken : (((commentsTaken r m).findSome? fun e =>
        (text? e.2).map fun text => (text, some e.1)).bind
      fun w => DocType.resolve w.1 owner (tagScope r owner w.2) index) =
      ((commentsTaken r m).findSome? fun e => (text? e.2).map fun text => (e.1, text)).bind
        fun w => meaning? r index m.className w.1 w.2 := by
    generalize commentsTaken r m = taken at hscope
    induction taken with
    | nil => rfl
    | cons e es ih =>
      rw [List.findSome?_cons, List.findSome?_cons]
      cases htext : text? e.2 with
      | none => exact ih fun f hf => hscope f (List.mem_cons_of_mem _ hf)
      | some text =>
        obtain ⟨scope, hclass⟩ := hscope e List.mem_cons_self
        simp [meaning?, tagScope, howner, hclass]
  rw [written?, comments, List.findSome?_append]
  cases hdoc : m.doc with
  | none => simpa using htaken
  | some doc =>
    cases htext : text? doc with
    | none => simpa [htext] using htaken
    | some text => simp [htext, meaning?, tagScope, howner]

theorem resultType?_gathered (index : Index) {owner : ClassInfo}
    (howner : r.class? m.className = some owner) :
    resultType? r index owner (gathered r m) = documentedResult? r index m := by
  rw [documentedResult?, ← resolve_written h index _ howner, ← (tags_gathered h hm).2, resultType?,
    DocComment.resultTag?]
  cases (gathered r m).returnType <;> rfl

theorem parameterType_gathered (index : Index) {owner : ClassInfo}
    (howner : r.class? m.className = some owner) (p : Parameter) :
    parameterType r index owner (gathered r m) p = documentedParameter r index m p := by
  rw [documentedParameter, ← resolve_written h index _ howner, ← (tags_gathered h hm).1,
    parameterType, DocComment.paramTag?]
  cases (gathered r m).param? p.name <;> rfl

omit h hm in
theorem params_gathered : (gathered r m).params = [] ↔ ¬HasParamTags r m := by
  rw [gathered, DocComment.params_inheritAll, HasParamTags, comments]
  cases m.doc <;> simp

/-- The observations from the gathered comment are those that the comments document. -/
theorem observations_gathered (index : Index) :
    observations r index ((r.class? m.className).getD { name := m.className }) m (gathered r m) =
      { className := m.className, name := m.name, calls := documentedCalls r index m,
        returns := (documentedResult? r index m).toList } := by
  obtain ⟨owner, howner, -⟩ := h.owner k m hm
  have howner : r.class? m.className = some owner := howner
  have hparameters : m.parameters.map (parameterType r index owner (gathered r m)) =
      m.parameters.map (documentedParameter r index m) := by
    apply List.map_congr_left
    intro p _
    exact parameterType_gathered h hm index howner p
  have hempty : (m.parameters.isEmpty || (gathered r m).params.isEmpty) = true ↔
      ¬(m.parameters ≠ [] ∧ HasParamTags r m) := by
    rw [Bool.or_eq_true, List.isEmpty_iff, List.isEmpty_iff, params_gathered]
    tauto
  rw [howner, Option.getD_some, observations, resultType?_gathered h hm index howner, hparameters,
    documentedCalls]
  congr 1
  by_cases hcalls : m.parameters ≠ [] ∧ HasParamTags r m
  · rw [if_pos hcalls, if_neg (fun hor => hempty.mp hor hcalls)]
  · rw [if_neg hcalls, if_pos (hempty.mpr hcalls)]

theorem evidence?_cases (index : Index) :
    (∃ e, evidence? r index m = some e ∧ m.merge e = documented r index m) ∨
      evidence? r index m = none ∧ documented r index m = m := by
  have hobserved := observations_gathered h hm index
  have hnothing : documentedCalls r index m = [] → documentedResult? r index m = none →
      documented r index m = m := by
    intro hcalls hresult
    simp [documented, hcalls, hresult]
  rcases effectiveDoc?_cases r m with heffective | ⟨heffective, htags⟩
  · have heq : evidence? r index m =
        if (documentedCalls r index m).isEmpty &&
          (documentedResult? r index m).toList.isEmpty then none
        else some { className := m.className, name := m.name, calls := documentedCalls r index m,
                    returns := (documentedResult? r index m).toList } := by
      rw [evidence?, heffective]
      simp only [Option.bind_eq_bind, Option.bind_some, hobserved]
    rw [heq]
    split
    · next hempty =>
      rw [Bool.and_eq_true, List.isEmpty_iff, List.isEmpty_iff, Option.toList_eq_nil_iff] at hempty
      exact .inr ⟨rfl, hnothing hempty.1 hempty.2⟩
    · refine .inl ⟨_, rfl, ?_⟩
      simp [Method.merge, documented]
  · -- a comment without tags gives neither arguments nor a result
    refine .inr ⟨by rw [evidence?, heffective]; rfl, ?_⟩
    rw [DocComment.hasTags, Bool.or_eq_false_iff] at htags
    obtain ⟨hparams, hresult⟩ := htags
    obtain ⟨owner, howner, -⟩ := h.owner k m hm
    apply hnothing
    · rw [documentedCalls, if_neg]
      exact fun hboth => params_gathered.mp (by simpa using hparams) hboth.2
    · rw [← resultType?_gathered h hm index howner, resultType?]
      have hnone : (gathered r m).returnType = none := by simpa using hresult
      rw [hnone]
      rfl

end

/-! ### Adding the evidence -/

section

variable {r : Registry} {index : Index}

theorem evidence?_bare {m e : Method} (h : evidence? r index m = some e) :
    e.Bare ∧ keyOf e = keyOf m := by
  obtain ⟨doc, -, h⟩ := Option.bind_eq_some_iff.mp h
  simp only at h
  split at h
  · cases h
  · cases h
    exact ⟨⟨rfl, rfl, rfl⟩, rfl⟩

theorem exists_of_mem_all {e : Method} (he : e ∈ all r index) :
    ∃ k m, r.methods.get? k = some m ∧ evidence? r index m = some e := by
  obtain ⟨m, hm, hevidence⟩ := List.mem_filterMap.mp he
  obtain ⟨⟨k, m⟩, hentry, rfl⟩ := List.mem_map.mp hm
  exact ⟨k, m, (SortedMap.mem_entries_iff _).mp hentry, hevidence⟩

theorem bare_of_mem_all {e : Method} (he : e ∈ all r index) : e.Bare := by
  obtain ⟨_, _, -, hevidence⟩ := exists_of_mem_all he
  exact (evidence?_bare hevidence).1

variable (hbuilt : r.Built)
include hbuilt

theorem contains_of_mem_all {e : Method} (he : e ∈ all r index) :
    r.methods.contains (keyOf e) = true := by
  obtain ⟨k, m, hm, hevidence⟩ := exists_of_mem_all he
  rw [(evidence?_bare hevidence).2, hbuilt.keyOf_eq hm, SortedMap.contains, hm]
  rfl

/-- There is one method under a key, so no evidence under the key but its own. -/
theorem filter_all {k : MethodKey} {m : Method} (hm : r.methods.get? k = some m) :
    (all r index).filter (keyOf · = k) = (evidence? r index m).toList := by
  have hmem : m ∈ r.methods.values :=
    List.mem_map.mpr ⟨(k, m), (SortedMap.mem_entries_iff _).mpr hm, rfl⟩
  have hfilter : ∀ n, (evidence? r index n).filter (keyOf · = k) =
      if keyOf n = k then evidence? r index n else none := by
    intro n
    cases hevidence : evidence? r index n with
    | none => simp
    | some e => simp [Option.filter, (evidence?_bare hevidence).2]
  have hself : r.methods.values.filter (keyOf · = k) = [m] := by
    rw [← hbuilt.keyOf_eq hm]
    exact filter_key_eq_singleton hbuilt.nodup_keys hmem
  have hall : (all r index).filter (keyOf · = k) =
      (r.methods.values.filter (keyOf · = k)).filterMap (evidence? r index) := by
    rw [all, List.filter_filterMap, List.filterMap_filter]
    simp only [hfilter, decide_eq_true_eq]
  rw [hall, hself, List.filterMap_cons, List.filterMap_nil]
  cases evidence? r index m <;> rfl

theorem get?_addTo (k : MethodKey) :
    (addTo r index).methods.get? k =
      (r.methods.get? k).map fun m => m.observing (evidence? r index m).toList := by
  rw [addTo, Registry.get?_observeAll_known (fun e he => bare_of_mem_all he)
    fun e he => contains_of_mem_all hbuilt he]
  cases hm : r.methods.get? k with
  | none => rfl
  | some m => rw [Option.map_some, Option.map_some, filter_all hbuilt hm]

theorem classes_addTo : (addTo r index).classes = r.classes :=
  Registry.classes_observeAll_known fun _ he =>
    hbuilt.class_of_method (contains_of_mem_all hbuilt he)

end

/-- Whatever was added to a registry with comments read from texts, the evidence of the comments
leaves the classes and the set of methods as they are. Each method keeps all but its observations.
To these the type of the result is added if the comments give one, and the types of one call if the
method has parameters and the comments a tag for any, all as the registry was before. -/
theorem addTo_documents (added : List Registry.Addition) (h : Registry.CommentsRead added)
    (index : Index) :
    let r := Registry.ofAdditions added
    (addTo r index).classes = r.classes ∧
      (addTo r index).methods.keys = r.methods.keys ∧
      ∀ k m, r.methods.get? k = some m →
        (addTo r index).methods.get? k = some (documented r index m) := by
  intro r
  have hcoherent : r.Coherent := Registry.coherent_ofAdditions h
  have hbuilt : r.Built := ⟨added, rfl⟩
  refine ⟨classes_addTo hbuilt, ?_, ?_⟩
  · apply SortedMap.keys_eq_of_contains
    intro k
    rw [SortedMap.contains, SortedMap.contains, get?_addTo hbuilt, Option.isSome_map]
  · intro k m hm
    rw [get?_addTo hbuilt, hm, Option.map_some, Option.some_inj]
    rcases evidence?_cases hcoherent hm index with ⟨e, he, hmerge⟩ | ⟨hnone, hsame⟩
    · rw [he, ← hmerge]
      exact ((evidence?_bare he).1.merge_eq m).symm
    · rw [hnone, hsame]
      exact m.observing_nil

/-- A circle that takes over from its shape, in another namespace, what it does not document
itself. -/
def circle : List Registry.Addition :=
  [.ofMethod
    { name := .ofText "App\\Shape"
      imports := (∅ : SortedMap String String).insert "unit" "Units\\Unit" }
    { className := .ofText "App\\Shape", name := "scale", parameters := [{ name := "unit" }]
      doc := some (.ofText "@param Unit $unit\n@param Area $by\n@return static") },
   .ofMethod { name := .ofText "Circle", interfaces := [.ofText "App\\Shape"] }
    { className := .ofText "Circle", name := "scale"
      parameters := [{ name := "by" }, { name := "unit" }, { name := "rest" }]
      doc := some (.ofText "@inheritdoc\n@param ?int $by") }]

def circleScale : Method where
  className := .ofText "Circle"
  name := "scale"
  parameters := [{ name := "by" }, { name := "unit" }, { name := "rest" }]
  doc := some (.ofText "@inheritdoc\n@param ?int $by")

theorem get?_circle :
    (Registry.ofAdditions circle).methods.get? ⟨.ofText "Circle", "scale"⟩ = some circleScale := by
  decide +kernel

theorem comments_circleScale :
    comments (Registry.ofAdditions circle) circleScale =
      [(.ofText "Circle", .ofText "@inheritdoc\n@param ?int $by"),
       (.ofText "App\\Shape", .ofText "@param Unit $unit\n@param Area $by\n@return static")] := by
  have hcircle : (Registry.ofAdditions circle).above (.ofText "Circle") =
      [.ofText "App\\Shape"] := by
    decide +kernel
  have hshape : (Registry.ofAdditions circle).above (.ofText "App\\Shape") = [] := by
    decide +kernel
  have hancestors : (Registry.ofAdditions circle).ancestors circleScale.className =
      [.ofText "Circle", .ofText "App\\Shape"] := by
    have hnew : ClassName.ofText "App\\Shape" ∉ [ClassName.ofText "Circle"] := by decide +kernel
    rw [Registry.ancestors, circleScale, Registry.walk, if_neg List.not_mem_nil, hcircle,
      List.singleton_append, Registry.walk, if_neg hnew, hshape, List.nil_append, Registry.walk]
  rw [comments, commentsTaken, commentsAbove, hancestors]
  decide +kernel

theorem addTo_documents_circle :
    Registry.CommentsRead circle ∧
      (addTo (Registry.ofAdditions circle) {}).methods.get? ⟨.ofText "Circle", "scale"⟩ =
        some { circleScale with
          calls :=
            [[(TypeValue.scalar .int).orNull, .ofClass (.ofText "Units\\Unit"),
              .unresolved .docComment]]
          returns := [.ofClass (.ofText "Circle")] } := by
  have hread : Registry.CommentsRead circle := by
    intro a ha m hm doc hdoc
    simp only [circle, List.mem_cons, List.not_mem_nil, or_false] at ha
    rcases ha with rfl | rfl
    · cases hm
      cases hdoc
      exact ⟨_, rfl⟩
    · cases hm
      cases hdoc
      exact ⟨_, rfl⟩
  have hresult : documentedResult? (Registry.ofAdditions circle) {} circleScale =
      some (.ofClass (.ofText "Circle")) := by
    rw [documentedResult?, written?, comments_circleScale]
    decide +kernel
  have hparameters : circleScale.parameters.map
      (documentedParameter (Registry.ofAdditions circle) {} circleScale) =
      [(TypeValue.scalar .int).orNull, .ofClass (.ofText "Units\\Unit"),
        .unresolved .docComment] := by
    unfold documentedParameter written?
    rw [comments_circleScale]
    decide +kernel
  have htags : HasParamTags (Registry.ofAdditions circle) circleScale := by
    rw [HasParamTags, comments_circleScale]
    decide +kernel
  refine ⟨hread, ((addTo_documents circle hread {}).2.2 _ _ get?_circle).trans ?_⟩
  rw [documented, documentedCalls, if_pos ⟨by decide, htags⟩, hparameters, hresult]
  rfl

end DocEvidence
end SignatureInference
