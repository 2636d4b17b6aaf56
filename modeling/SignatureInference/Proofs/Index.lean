import SignatureInference.Proofs.ClassName
import SignatureInference.Proofs.Editing.Effect
import SignatureInference.Proofs.Lists
import SignatureInference.Proofs.Source.Spans

/-! # The index is the history of the sources

What an index answers follows from the sources that were entered, in their order: the files that
declare a class, each once; the name of a class as it was declared first; the first file that
declares a function.
-/
namespace SignatureInference

/-! ### Names of classes -/

theorem ClassKey.normal_ne_empty {name : String} {c : Char} {cs : List Char}
    (hname : name.toList = c :: cs) (hc : c ≠ '\\') : normal name ≠ "" := by
  rw [normal, Text.onString, hname]
  intro hempty
  have hnil := congrArg String.toList hempty
  rw [String.toList_ofList] at hnil
  exact Text.lower_ne_nil (ClassName.dropOuterBackslashes_ne_nil hc) hnil

namespace Source

theorem name_of_takeName? {cs : List Char} {p : List Char × List Char} (h : takeName? cs = some p) :
    ∃ c rest, p.1 = c :: rest ∧ c ≠ '\\' := by
  obtain ⟨-, hstart, -⟩ := takeName?_eq_some_iff.mp h
  cases hname : p.1 with
  | nil =>
    rw [hname] at hstart
    cases hstart
  | cons c rest =>
    have hc : isNameStart c = true := by rwa [hname] at hstart
    refine ⟨c, rest, rfl, ?_⟩
    rintro rfl
    revert hc
    decide

theorem name_of_classHeader? {previous : Option Char} {cs : List Char} {f : Found}
    (h : classHeader? previous cs = some f) : ∃ c rest, f.name = c :: rest ∧ c ≠ '\\' := by
  rw [classHeader?_eq, headed] at h
  split at h
  · obtain ⟨v, -, h⟩ := Option.bind_eq_some_iff.mp h
    obtain ⟨w, -, h⟩ := Option.bind_eq_some_iff.mp h
    obtain ⟨p, hp, h⟩ := Option.bind_eq_some_iff.mp h
    cases h
    exact name_of_takeName? hp
  · cases h

theorem normal_name_ne_empty {masked : List Char} {c : ClassSpan} (hc : c ∈ classSpans masked) :
    ClassKey.normal c.name ≠ "" := by
  obtain ⟨o, ho, hspan⟩ := List.mem_filterMap.mp hc
  obtain ⟨u, v, f, -, -, hf, -, hname⟩ := IsHeader.ofClass.start_mem ho
  obtain ⟨d, rest, hd, hne⟩ := name_of_classHeader? hf
  rw [classSpan?_eq] at hspan
  split at hspan
  · cases hspan
  · obtain ⟨b, -, rfl⟩ := Option.map_eq_some_iff.mp hspan
    have hlist : (String.ofList o.name).toList = d :: rest := by
      rw [String.toList_ofList, hname, hd]
    exact ClassKey.normal_ne_empty hlist hne

/-! ### What a source declares -/

def classesOf (source : String) : List ClassSpan := classSpans (mask source.toList)

def methodsOf (source : String) (c : ClassSpan) : List FunctionSpan :=
  (methodSpans (mask source.toList) c).toOption.getD []

def freeFunctionsOf (source : String) : List (String × FunctionSpan) :=
  (freeFunctions (mask source.toList) (classesOf source)).toOption.getD []

def ClassSpan.key (c : ClassSpan) : ClassKey := .of c.namespaceName c.name

def declaresClass (source : String) (key : ClassKey) : Bool := (classesOf source).any (·.key = key)

/-- Whether a source declares a method, or a free function if the class is empty. -/
def declaresFunction (source : String) (key : FunctionKey) : Bool :=
  if key.classKey.name = "" then
    (freeFunctionsOf source).any fun f => FunctionKey.of f.1 "" f.2.name = key
  else
    (classesOf source).any fun c =>
      (methodsOf source c).any fun m => FunctionKey.of c.namespaceName c.name m.name = key

end Source

namespace Declaration

open Source

def className? (key : ClassKey) : Declaration → Option ClassName
  | .classLike space name =>
    if ClassKey.of space name = key then some (.ofParts space name) else none
  | .function .. => none

def isFunction (key : FunctionKey) : Declaration → Bool
  | .classLike .. => false
  | .function space className name => FunctionKey.of space className name = key

def ofSpan (source : String) (c : ClassSpan) : List Declaration :=
  .classLike c.namespaceName c.name ::
    (methodsOf source c).map fun m => .function c.namespaceName c.name m.name

theorem ofSpan_of_ofClass {source : String} {c : ClassSpan} {ds : List Declaration}
    (h : ofClass (mask source.toList) c = .ok ds) : ofSpan source c = ds := by
  unfold ofClass at h
  unfold ofSpan methodsOf
  cases hmethods : methodSpans (mask source.toList) c with
  | error e =>
    rw [hmethods] at h
    cases h
  | ok methods =>
    rw [hmethods] at h
    cases h
    rfl

theorem eq_of_ofSource {source : String} {ds : List Declaration} (h : ofSource source = .ok ds) :
    ds = (classesOf source).flatMap (ofSpan source) ++
      (freeFunctionsOf source).map fun f => .function f.1 "" f.2.name := by
  have hspans : classSpans (mask source.toList) = classesOf source := rfl
  unfold ofSource at h
  simp only [hspans] at h
  cases hclasses : (classesOf source).mapM (ofClass (mask source.toList)) with
  | error e =>
    rw [hclasses] at h
    cases h
  | ok inClasses =>
    rw [hclasses] at h
    unfold freeFunctionsOf
    cases hfree : freeFunctions (mask source.toList) (classesOf source) with
    | error e =>
      rw [hfree] at h
      cases h
    | ok free =>
      rw [hfree] at h
      cases h
      rw [flatten_of_mapM (fun c ds => ofSpan_of_ofClass) hclasses]
      rfl

theorem findSome?_className? {source : String} {ds : List Declaration}
    (h : ofSource source = .ok ds) (key : ClassKey) :
    ds.findSome? (className? key) =
      ((classesOf source).find? (·.key = key)).map fun c => .ofParts c.namespaceName c.name := by
  have hnone {α : Type} (f : α → Declaration) (hf : ∀ x, className? key (f x) = none)
    (xs : List α) :
      (xs.map f).findSome? (className? key) = none := by
    rw [List.findSome?_eq_none_iff]
    intro d hd
    obtain ⟨x, -, rfl⟩ := List.mem_map.mp hd
    exact hf x
  rw [eq_of_ofSource h, List.findSome?_append, hnone _ fun f => rfl, Option.or_none]
  induction classesOf source with
  | nil => rfl
  | cons c cs ih =>
    rw [List.flatMap_cons, List.findSome?_append, ih, ofSpan, List.findSome?_cons, List.find?_cons,
      hnone _ fun m => rfl]
    by_cases hkey : c.key = key
    · simp [className?, ClassSpan.key, ← hkey]
    · have hkey' : ¬ClassKey.of c.namespaceName c.name = key := hkey
      simp [className?, hkey, hkey']

/-- Methods and free functions are never taken for each other. -/
theorem any_isFunction {source : String} {ds : List Declaration} (h : ofSource source = .ok ds)
    (key : FunctionKey) : ds.any (isFunction key) = declaresFunction source key := by
  rw [eq_of_ofSource h, List.any_append, List.any_flatMap, List.any_map]
  simp only [ofSpan, List.any_cons, List.any_map, isFunction, Bool.false_or, Function.comp_def]
  unfold declaresFunction
  split
  · next hfree =>
    have hmethods : ((classesOf source).any fun c => (methodsOf source c).any fun m =>
        decide (FunctionKey.of c.namespaceName c.name m.name = key)) = false := by
      rw [List.any_eq_false]
      intro c hc hany
      obtain ⟨m, -, hm⟩ := List.any_eq_true.mp hany
      apply normal_name_ne_empty hc
      rw [← hfree, ← of_decide_eq_true hm]
      rfl
    rw [hmethods, Bool.false_or]
  · next hmethod =>
    have hfree : ((freeFunctionsOf source).any fun f =>
      decide (FunctionKey.of f.1 "" f.2.name = key)) =
        false := by
      rw [List.any_eq_false]
      intro f _ hf
      apply hmethod
      rw [← of_decide_eq_true hf]
      rfl
    rw [hfree, Bool.or_false]

end Declaration

/-! ### One source -/

/-- The files of a class after one more file was found to declare it under a name. -/
def ClassFiles.declaredIn (path : Path) (name : ClassName) (known : Option ClassFiles) :
    ClassFiles :=
  let entry := known.getD ⟨name, []⟩
  if entry.files.any (·.same path) then entry else { entry with files := entry.files ++ [path] }

theorem ClassFiles.declaredIn_again (path : Path) (name name' : ClassName)
    (known : Option ClassFiles) :
    declaredIn path name' (some (declaredIn path name known)) = declaredIn path name known := by
  have hin : (declaredIn path name known).files.any (·.same path) = true := by
    unfold declaredIn
    dsimp only
    split
    · assumption
    · rw [List.any_append]
      simp [Path.same_iff]
  unfold declaredIn at hin ⊢
  dsimp only at hin ⊢
  rw [Option.getD_some, if_pos hin]

namespace Index

open Source

variable {index index' : Index} {path : Path} {source : String}

theorem get?_classes_enter (d : Declaration) (key : ClassKey) :
    (index.enter path d).classes.get? key =
      match d.className? key with
      | some name => some (.declaredIn path name (index.classes.get? key))
      | none => index.classes.get? key := by
  cases d with
  | classLike space name =>
    rw [enter, SortedMap.get?_alter, Declaration.className?]
    by_cases hkey : ClassKey.of space name = key
    · rw [if_pos hkey.symm, if_pos hkey, hkey]
      rfl
    · rw [if_neg fun h => hkey h.symm, if_neg hkey]
  | function space className name => rfl

theorem get?_classes_foldl_enter (ds : List Declaration) (key : ClassKey) :
    (ds.foldl (enter path) index).classes.get? key =
      match ds.findSome? (·.className? key) with
      | some name => some (.declaredIn path name (index.classes.get? key))
      | none => index.classes.get? key := by
  induction ds generalizing index with
  | nil => rfl
  | cons d ds ih =>
    rw [List.foldl_cons, ih, get?_classes_enter, List.findSome?_cons]
    cases d.className? key with
    | none => rfl
    | some name =>
      cases ds.findSome? (·.className? key) with
      | none => rfl
      | some name' => exact congrArg some (ClassFiles.declaredIn_again ..)

theorem get?_functions_enter (d : Declaration) (key : FunctionKey) :
    (index.enter path d).functions.get? key =
      (index.functions.get? key).or (if d.isFunction key = true then some path else none) := by
  cases d with
  | classLike space name => simp [enter, Declaration.isFunction]
  | function space className name =>
    rw [enter, SortedMap.get?_insertIfNew, Declaration.isFunction]
    by_cases hkey : FunctionKey.of space className name = key
    · rw [if_pos hkey.symm, if_pos (decide_eq_true hkey), hkey]
      cases index.functions.get? key <;> rfl
    · rw [if_neg fun h => hkey h.symm, if_neg (by simpa using hkey), Option.or_none]

theorem get?_functions_foldl_enter (ds : List Declaration) (key : FunctionKey) :
    (ds.foldl (enter path) index).functions.get? key =
      (index.functions.get? key).or
        (if ds.any (·.isFunction key) = true then some path else none) := by
  induction ds generalizing index with
  | nil => simp
  | cons d ds ih =>
    rw [List.foldl_cons, ih, get?_functions_enter, Option.or_assoc, List.any_cons]
    cases d.isFunction key <;> simp

theorem files_foldl_enter (ds : List Declaration) :
    (ds.foldl (enter path) index).files = index.files := by
  induction ds generalizing index with
  | nil => rfl
  | cons d ds ih =>
    rw [List.foldl_cons, ih]
    cases d <;> rfl

/-! ### All sources -/

def ofSources (sources : List (Path × String)) : Except ScanError Index :=
  sources.foldlM (fun index s => index.addSource s.1 s.2) {}

/-- The paths of the sources that declare a class, each once, in order of first appearance. -/
def declaringPaths (sources : List (Path × String)) (key : ClassKey) : List Path :=
  ((sources.filter fun s => declaresClass s.2 key).map (·.1)).eraseDupsBy Path.same

def firstDeclaration? (sources : List (Path × String)) (key : ClassKey) : Option ClassSpan :=
  (sources.flatMap fun s => classesOf s.2).find? (·.key = key)

structure TellsOf (sources : List (Path × String)) (index : Index) : Prop where
  files_eq : index.files = sources.length
  classes_eq : ∀ key, index.classes.get? key = (firstDeclaration? sources key).map fun c =>
    ⟨.ofParts c.namespaceName c.name, declaringPaths sources key⟩
  functions_eq : ∀ key, index.functions.get? key =
    (sources.find? fun s => declaresFunction s.2 key).map (·.1)

theorem firstDeclaration?_concat (sources : List (Path × String)) (s : Path × String)
    (key : ClassKey) :
    firstDeclaration? (sources ++ [s]) key =
      (firstDeclaration? sources key).or ((classesOf s.2).find? (·.key = key)) := by
  rw [firstDeclaration?, List.flatMap_append, List.find?_append, List.flatMap_singleton,
    ← firstDeclaration?]

theorem find?_key_eq_none_iff {key : ClassKey} :
    (classesOf source).find? (·.key = key) = none ↔ declaresClass source key = false := by
  rw [declaresClass, List.find?_eq_none, List.any_eq_false]

theorem declaringPaths_eq_nil {sources : List (Path × String)} {key : ClassKey}
    (h : firstDeclaration? sources key = none) : declaringPaths sources key = [] := by
  have hnone : (sources.filter fun s => declaresClass s.2 key) = [] := by
    rw [List.filter_eq_nil_iff]
    intro s hs hdeclares
    obtain ⟨c, hc, hkey⟩ := List.any_eq_true.mp hdeclares
    exact List.find?_eq_none.mp h c (List.mem_flatMap.mpr ⟨s, hs, hc⟩) hkey
  rw [declaringPaths, hnone]
  rfl

theorem declaringPaths_concat (sources : List (Path × String)) {key : ClassKey}
    (h : declaresClass source key = true) :
    declaringPaths (sources ++ [(path, source)]) key =
      if (declaringPaths sources key).any (·.same path) = true then declaringPaths sources key
      else declaringPaths sources key ++ [path] := by
  have hone : [(path, source)].filter (fun s => declaresClass s.2 key) = [(path, source)] := by
    rw [List.filter_cons, if_pos h]
    rfl
  have hsame : (Path.same path) = fun p => p.same path := funext (Path.same_comm path)
  rw [declaringPaths, List.filter_append, hone, List.map_append, List.map_singleton,
    eraseDupsBy_concat, hsame]
  rfl

theorem declaringPaths_concat_of_not (sources : List (Path × String)) {key : ClassKey}
    (h : declaresClass source key = false) :
    declaringPaths (sources ++ [(path, source)]) key = declaringPaths sources key := by
  have hnone : [(path, source)].filter (fun s => declaresClass s.2 key) = [] := by
    rw [List.filter_cons, if_neg (by simp [h])]
    rfl
  rw [declaringPaths, List.filter_append, hnone, List.append_nil, ← declaringPaths]

/-- Entering a source adds it to what the index tells of. -/
theorem TellsOf.addSource {sources : List (Path × String)} (h : TellsOf sources index)
    (hadd : index.addSource path source = .ok index') :
    TellsOf (sources ++ [(path, source)]) index' := by
  unfold Index.addSource at hadd
  cases hscan : Declaration.ofSource source with
  | error e =>
    rw [hscan] at hadd
    cases hadd
  | ok ds =>
    rw [hscan] at hadd
    cases hadd
    constructor
    · rw [files_foldl_enter, List.length_append, h.files_eq]
      rfl
    · intro key
      rw [get?_classes_foldl_enter, Declaration.findSome?_className? hscan, h.classes_eq,
        firstDeclaration?_concat]
      cases hfind : (classesOf source).find? (·.key = key) with
      | none =>
        rw [declaringPaths_concat_of_not sources (find?_key_eq_none_iff.mp hfind), Option.or_none]
        rfl
      | some c =>
        have hdeclares : declaresClass source key = true := by
          rw [← Bool.not_eq_false, ← find?_key_eq_none_iff, hfind]
          simp
        rw [declaringPaths_concat sources hdeclares]
        cases hfirst : firstDeclaration? sources key with
        | none =>
          rw [declaringPaths_eq_nil hfirst]
          rfl
        | some first =>
          simp only [Option.map_some, Option.some_or, ClassFiles.declaredIn, Option.getD_some]
          split <;> rfl
    · intro key
      rw [get?_functions_foldl_enter, Declaration.any_isFunction hscan, h.functions_eq,
        List.find?_append, Option.map_or]
      congr 1
      rw [List.find?_cons]
      cases declaresFunction source key <;> rfl

theorem TellsOf.foldlM {sources more : List (Path × String)} (h : TellsOf sources index)
    (hadd : more.foldlM (fun index s => index.addSource s.1 s.2) index = .ok index') :
    TellsOf (sources ++ more) index' := by
  induction more generalizing sources index with
  | nil =>
    cases hadd
    rwa [List.append_nil]
  | cons s more ih =>
    rw [List.foldlM_cons] at hadd
    cases hfirst : index.addSource s.1 s.2 with
    | error e =>
      rw [hfirst] at hadd
      cases hadd
    | ok next =>
      rw [hfirst] at hadd
      have hall := ih (h.addSource hfirst) hadd
      rwa [List.append_assoc] at hall

theorem tellsOf_ofSources {sources : List (Path × String)} (h : ofSources sources = .ok index) :
    TellsOf sources index := by
  have hempty : TellsOf [] {} := ⟨rfl, fun _ => rfl, fun _ => rfl⟩
  exact hempty.foldlM h

theorem exists_foldlM_addSource {sources : List (Path × String)}
    (h : ∀ s ∈ sources, (Declaration.ofSource s.2).isOk = true) (index : Index) :
    ∃ index', sources.foldlM (fun index s => index.addSource s.1 s.2) index = .ok index' := by
  induction sources generalizing index with
  | nil => exact ⟨index, rfl⟩
  | cons s sources ih =>
    have hs := h s List.mem_cons_self
    rw [List.foldlM_cons, addSource]
    cases hscan : Declaration.ofSource s.2 with
    | error e =>
      rw [hscan] at hs
      cases hs
    | ok ds => exact ih (fun s hs => h s (List.mem_cons_of_mem _ hs)) _

theorem TellsOf.classFiles_eq {sources : List (Path × String)} (h : TellsOf sources index)
    (space name : String) :
    index.classFiles space name = declaringPaths sources (.of space name) := by
  rw [classFiles, h.classes_eq]
  cases hfirst : firstDeclaration? sources (.of space name) with
  | none => exact (declaringPaths_eq_nil hfirst).symm
  | some c => rfl

theorem declares_of_declaringPaths {sources : List (Path × String)} {key : ClassKey}
    (h : declaringPaths sources key = [path]) :
    (∃ s ∈ sources, s.1 = path ∧ declaresClass s.2 key = true) ∧
      ∀ s ∈ sources, declaresClass s.2 key = true → s.1.same path = true := by
  obtain ⟨hmem, hall⟩ := of_eraseDupsBy_singleton h
  constructor
  · obtain ⟨s, hs, hpath⟩ := List.mem_map.mp hmem
    obtain ⟨hs, hdeclares⟩ := List.mem_filter.mp hs
    exact ⟨s, hs, hpath, hdeclares⟩
  · intro s hs hdeclares
    rcases hall s.1 (List.mem_map.mpr ⟨s, List.mem_filter.mpr ⟨hs, hdeclares⟩, rfl⟩)
      with heq | hsame
    · rw [heq, Path.same_iff]
    · exact hsame

/-- An index is the history of the sources that were entered: a class is in the files that declare
it, in order of first appearance, and is known by its first name; a function is in the first file
that declares it. So an editor changes a class only if one path alone declares it. -/
theorem answers_of_sources (sources : List (Path × String))
    (hscan : ∀ s ∈ sources, (Declaration.ofSource s.2).isOk = true) :
    ∃ index, ofSources sources = .ok index ∧ index.files = sources.length ∧
      (∀ space name,
        index.classFiles space name =
          ((sources.filter fun s => declaresClass s.2 (.of space name)).map (·.1)).eraseDupsBy
            Path.same ∧
        index.findClass? space name =
          ((sources.flatMap fun s => classesOf s.2).find? fun c =>
            ClassKey.of c.namespaceName c.name = .of space name).map fun c =>
              .ofParts c.namespaceName c.name) ∧
      (∀ space className name, index.functionFile? space className name =
        (sources.find? fun s => declaresFunction s.2 (.of space className name)).map (·.1)) ∧
      ∀ (ed ed' : Editor) (i : Instruction) (path : Path) (line : Nat) (before after : String),
        ed.index = index → ed.apply i = .ok (ed', .applied path line before after) →
        (∃ s ∈ sources, s.1 = path ∧
          declaresClass s.2 (.of i.className.namespaceName i.className.shortName) = true) ∧
        ∀ s ∈ sources,
          declaresClass s.2 (.of i.className.namespaceName i.className.shortName) = true →
          s.1.same path = true := by
  obtain ⟨index, hindex⟩ := exists_foldlM_addSource hscan {}
  have htells : TellsOf sources index := tellsOf_ofSources hindex
  refine ⟨index, hindex, htells.files_eq, fun space name => ⟨htells.classFiles_eq space name, ?_⟩,
    ?_, ?_⟩
  · rw [findClass?, htells.classes_eq, Option.map_map]
    rfl
  · intro space className name
    exact htells.functions_eq _
  · intro ed ed' i path line before after heq happly
    apply declares_of_declaringPaths
    rw [← htells.classFiles_eq, ← heq]
    exact Editor.classFiles_of_fileOf (Editor.inserted_of_apply happly).1.file_eq

/-- Three sources that declare one class under three spellings, two of them at one path. -/
def spellings : List (Path × String) :=
  [(⟨"src/A.php"⟩,
    "<?php namespace App; class Foo \x7b function bar() \x7b\x7d \x7d function baz() \x7b\x7d"),
   (⟨"src//A.php"⟩, "<?php namespace APP; class FOO \x7b\x7d class foo \x7b\x7d"),
   (⟨"src/B.php"⟩,
     "<?php namespace app; interface foo \x7b function BAR(); \x7d function bar() \x7b\x7d")]

theorem answers_of_sources_spellings :
    (∀ s ∈ spellings, (Declaration.ofSource s.2).isOk = true) ∧
    ∃ index, ofSources spellings = .ok index ∧ index.files = 3 ∧
      index.classFiles "\\App" "fOO" = [⟨"src/A.php"⟩, ⟨"src/B.php"⟩] ∧
      index.findClass? "app\\" "foo" = some ⟨"App\\Foo"⟩ ∧
      index.functionFile? "App" "foo" "Bar" = some ⟨"src/A.php"⟩ ∧
      index.functionFile? "App" "" "Bar" = some ⟨"src/B.php"⟩ := by
  have hall : spellings.all (fun s => (Declaration.ofSource s.2).isOk) = true := by decide +kernel
  have hscan := List.all_eq_true.mp hall
  obtain ⟨index, hindex, hfiles, hclasses, hfunctions, -⟩ := answers_of_sources spellings hscan
  refine ⟨hscan, index, hindex, hfiles, ?_, ?_, ?_, ?_⟩
  · rw [(hclasses _ _).1]
    decide +kernel
  · rw [(hclasses _ _).2]
    decide +kernel
  · rw [hfunctions]
    decide +kernel
  · rw [hfunctions]
    decide +kernel

end Index
end SignatureInference
