import SignatureInference.DocComment

/-! # Tags that are taken over

A comment that takes over the tags of others keeps its own tags. Of each other tag it has the first
one along the way, marked with the class it comes from. A comment as it is read has no such marks.
-/
namespace SignatureInference.DocComment

/-- All tags of the comment are written in it. -/
structure Original (doc : DocComment) : Prop where
  params : ∀ tag ∈ doc.params, tag.origin = none
  result : doc.returnOrigin = none

theorem origin_of_readParam? {rest : List Char} {tag : ParamTag} (h : readParam? rest = some tag) :
    tag.origin = none := by
  unfold readParam? at h
  split at h
  · cases h
  · simp only at h
    split at h
    · rw [← Option.some.inj h]
    · split at h
      · rw [← Option.some.inj h]
      · exact absurd h (Option.some_ne_none tag).symm

theorem Original.readLine {doc : DocComment} (h : doc.Original) (line : List Char) :
    (doc.readLine line).Original := by
  obtain ⟨hparams, hresult⟩ := h
  unfold DocComment.readLine
  simp only
  split
  · exact ⟨hparams, hresult⟩
  split
  · split
    · next tag htag =>
      refine ⟨?_, hresult⟩
      intro other hother
      rcases List.mem_append.mp hother with hold | hnew
      · exact hparams other hold
      · rw [List.mem_singleton.mp hnew]
        exact origin_of_readParam? htag
    · exact ⟨hparams, hresult⟩
  · split
    · split <;> exact ⟨hparams, hresult⟩
    · split <;> exact ⟨hparams, hresult⟩

theorem original_ofText (comment : String) : (ofText comment).Original := by
  have hlines : ∀ lines : List (List Char), ∀ doc : DocComment, doc.Original →
      (lines.foldl DocComment.readLine doc).Original := by
    intro lines
    induction lines with
    | nil => exact fun doc h => h
    | cons line lines ih => exact fun doc h => ih _ (h.readLine line)
  exact hlines _ _ ⟨by simp, rfl⟩

/-! ### One comment above -/

def fromClass (c : ClassName) (tag : ParamTag) : ParamTag := { tag with origin := some c }

def paramText? (name : String) (doc : DocComment) : Option String :=
  (doc.param? name).map (·.typeText)

/-- The type that a comment gives for a parameter, and the class that the tag was taken from. -/
def paramTag? (name : String) (doc : DocComment) : Option (String × Option ClassName) :=
  (doc.param? name).map fun tag => (tag.typeText, tag.origin)

def resultTag? (doc : DocComment) : Option (String × Option ClassName) :=
  doc.returnType.map fun text => (text, doc.returnOrigin)

theorem Original.paramTag?_eq {doc : DocComment} (h : doc.Original) (name : String) :
    doc.paramTag? name = (doc.paramText? name).map fun text => (text, none) := by
  rw [paramTag?, paramText?, Option.map_map]
  cases hparam : doc.param? name with
  | none => rfl
  | some tag => simp [h.params tag (List.mem_of_find?_eq_some hparam)]

theorem Original.resultTag?_eq {doc : DocComment} (h : doc.Original) :
    doc.resultTag? = doc.returnType.map fun text => (text, none) := by
  rw [resultTag?, h.result]

theorem param?_inheritParam (origin : ClassName) (doc : DocComment) (tag : ParamTag)
    (name : String) :
    (inheritParam origin doc tag).param? name =
      (doc.param? name).or
        (if tag.name = name then some { tag with origin := some (tag.origin.getD origin) }
        else none) := by
  unfold inheritParam
  split
  · next hsome =>
    by_cases hname : tag.name = name
    · rw [hname] at hsome
      obtain ⟨known, hknown⟩ := Option.isSome_iff_exists.mp hsome
      rw [hknown, Option.some_or]
    · rw [if_neg hname, Option.or_none]
  · simp only [param?, List.find?_append]
    congr 1
    by_cases hname : tag.name = name <;> simp [hname]

theorem param?_foldl_inheritParam (origin : ClassName) (tags : List ParamTag) (doc : DocComment)
    (name : String) (h : ∀ tag ∈ tags, tag.origin = none) :
    (tags.foldl (inheritParam origin) doc).param? name =
      (doc.param? name).or ((tags.find? (·.name == name)).map (fromClass origin)) := by
  induction tags generalizing doc with
  | nil => simp
  | cons tag tags ih =>
    rw [List.foldl_cons, ih _ fun other hother => h other (List.mem_cons_of_mem _ hother),
      param?_inheritParam, Option.or_assoc, h tag List.mem_cons_self, List.find?_cons]
    congr 1
    by_cases hname : tag.name = name
    · simp [hname, fromClass]
    · have hne : (tag.name == name) = false := by simpa using hname
      simp [hname, hne]

theorem foldl_inheritParam_result (origin : ClassName) (tags : List ParamTag) (doc : DocComment) :
    (tags.foldl (inheritParam origin) doc).returnType = doc.returnType ∧
      (tags.foldl (inheritParam origin) doc).returnOrigin = doc.returnOrigin := by
  induction tags generalizing doc with
  | nil => exact ⟨rfl, rfl⟩
  | cons tag tags ih =>
    have hstep : (inheritParam origin doc tag).returnType = doc.returnType ∧
        (inheritParam origin doc tag).returnOrigin = doc.returnOrigin := by
      unfold inheritParam
      split <;> exact ⟨rfl, rfl⟩
    obtain ⟨htype, horigin⟩ := ih (inheritParam origin doc tag)
    exact ⟨htype.trans hstep.1, horigin.trans hstep.2⟩

theorem foldl_inheritParam_params (origin : ClassName) (tags : List ParamTag) (doc : DocComment) :
    (tags.foldl (inheritParam origin) doc).params = [] ↔ doc.params = [] ∧ tags = [] := by
  induction tags generalizing doc with
  | nil => simp
  | cons tag tags ih =>
    rw [List.foldl_cons, ih]
    have hstep : (inheritParam origin doc tag).params ≠ [] := by
      unfold inheritParam
      split
      · next hsome =>
        intro hnil
        simp [param?, hnil] at hsome
      · simp
    simp [hstep]

section

variable {above : DocComment} (h : above.Original) (doc : DocComment) (c : ClassName)
include h

theorem paramTag?_inheritFrom (name : String) :
    (doc.inheritFrom above c).paramTag? name =
      (doc.paramTag? name).or ((above.paramText? name).map fun text => (text, some c)) := by
  have hparam : (doc.inheritFrom above c).param? name =
      (doc.param? name).or ((above.param? name).map (fromClass c)) := by
    have hfold := param?_foldl_inheritParam c above.params doc name h.params
    unfold inheritFrom
    simp only
    split <;> exact hfold
  rw [paramTag?, hparam, Option.map_or, paramTag?, paramText?, Option.map_map, Option.map_map]
  rfl

theorem resultTag?_inheritFrom :
    (doc.inheritFrom above c).resultTag? =
      doc.resultTag?.or (above.returnType.map fun text => (text, some c)) := by
  obtain ⟨htype, horigin⟩ := foldl_inheritParam_result c above.params doc
  unfold inheritFrom resultTag?
  simp only [htype, h.result]
  cases hown : doc.returnType with
  | some text => simp [htype, horigin, hown]
  | none => cases above.returnType <;> simp [htype, horigin, hown]

omit h in
theorem params_inheritFrom :
    (doc.inheritFrom above c).params = [] ↔ doc.params = [] ∧ above.params = [] := by
  have hfold := foldl_inheritParam_params c above.params doc
  unfold inheritFrom
  simp only
  split <;> exact hfold

end

/-! ### All comments above -/

/-- A comment together with the tags that it takes over from the given ones, in order. -/
def inheritAll (doc : DocComment) (comments : List (ClassName × DocComment)) : DocComment :=
  comments.foldl (fun doc e => doc.inheritFrom e.2 e.1) doc

section

variable {comments : List (ClassName × DocComment)} (h : ∀ e ∈ comments, e.2.Original)
  (doc : DocComment)
include h

/-- What is taken over from one comment unless it is there, is taken over from the first of
several. -/
theorem tag_inheritAll (tag? : DocComment → Option (String × Option ClassName))
    (text? : DocComment → Option String)
    (hstep : ∀ above : DocComment, above.Original → ∀ doc c,
      tag? (doc.inheritFrom above c) =
        (tag? doc).or ((text? above).map fun text => (text, some c))) :
    tag? (doc.inheritAll comments) =
      (tag? doc).or (comments.findSome? fun e => (text? e.2).map fun text => (text, some e.1)) := by
  induction comments generalizing doc with
  | nil => simp [inheritAll]
  | cons e comments ih =>
    have hrest := ih (fun f hf => h f (List.mem_cons_of_mem _ hf)) (doc.inheritFrom e.2 e.1)
    rw [inheritAll, List.foldl_cons, ← inheritAll, hrest, hstep e.2 (h e List.mem_cons_self),
      Option.or_assoc, List.findSome?_cons]
    cases text? e.2 <;> rfl

/-- For each parameter the comment has its own tag or else the first one on the way up. -/
theorem paramTag?_inheritAll (name : String) :
    (doc.inheritAll comments).paramTag? name =
      (doc.paramTag? name).or
        (comments.findSome? fun e => (e.2.paramText? name).map fun text => (text, some e.1)) :=
  tag_inheritAll h doc (paramTag? name) (paramText? name) fun _ habove doc c =>
    paramTag?_inheritFrom habove doc c name

/-- The result tag is the comment's own or else the first one on the way up. -/
theorem resultTag?_inheritAll :
    (doc.inheritAll comments).resultTag? =
      doc.resultTag?.or
        (comments.findSome? fun e => e.2.returnType.map fun text => (text, some e.1)) :=
  tag_inheritAll h doc resultTag? returnType fun _ habove doc c =>
    resultTag?_inheritFrom habove doc c

end

theorem params_inheritAll (doc : DocComment) (comments : List (ClassName × DocComment)) :
    (doc.inheritAll comments).params = [] ↔ doc.params = [] ∧ ∀ e ∈ comments, e.2.params = [] := by
  induction comments generalizing doc with
  | nil => simp [inheritAll]
  | cons e comments ih =>
    rw [inheritAll, List.foldl_cons, ← inheritAll, ih, params_inheritFrom,
      List.forall_mem_cons, and_assoc]

end SignatureInference.DocComment
