import SignatureInference.ClassName
import SignatureInference.PathFilter
import SignatureInference.Source.Span

/-! # The index of declarations

Which files declare which classes and functions. Names are looked up without regard to case and to
backslashes around them.
-/
namespace SignatureInference

/-- A class for look-ups. -/
structure ClassKey where
  namespaceName : String
  name : String
  deriving DecidableEq, Repr

/-- A function for look-ups. The class of a free function is empty. -/
structure FunctionKey where
  classKey : ClassKey
  name : String
  deriving DecidableEq, Repr

namespace ClassKey

/-- A name for look-ups. -/
def normal (name : String) : String :=
  Text.onString (fun cs => Text.lower (ClassName.dropOuterBackslashes cs)) name

def of (namespaceName name : String) : ClassKey := ⟨normal namespaceName, normal name⟩

instance : Ord ClassKey := ⟨compareLex (compareOn namespaceName) (compareOn name)⟩

instance : Std.TransOrd ClassKey :=
  inferInstanceAs (Std.TransCmp (compareLex (compareOn namespaceName) (compareOn name)))

instance : Std.LawfulEqOrd ClassKey where
  eq_of_compare {a b} h := by
    have h : (compare a.namespaceName b.namespaceName).then (compare a.name b.name) = .eq := h
    rw [Ordering.then_eq_eq] at h
    have hs : a.namespaceName = b.namespaceName := Std.LawfulEqCmp.eq_of_compare h.1
    have hn : a.name = b.name := Std.LawfulEqCmp.eq_of_compare h.2
    cases a; cases b; simp_all

end ClassKey

namespace FunctionKey

/-- The key of a method, or of a free function if the class is empty. -/
def of (namespaceName className name : String) : FunctionKey :=
  ⟨.of namespaceName className, ClassKey.normal name⟩

instance : Ord FunctionKey := ⟨compareLex (compareOn classKey) (compareOn name)⟩

instance : Std.TransOrd FunctionKey :=
  inferInstanceAs (Std.TransCmp (compareLex (compareOn classKey) (compareOn name)))

instance : Std.LawfulEqOrd FunctionKey where
  eq_of_compare {a b} h := by
    have h : (compare a.classKey b.classKey).then (compare a.name b.name) = .eq := h
    rw [Ordering.then_eq_eq] at h
    have hc : a.classKey = b.classKey := Std.LawfulEqCmp.eq_of_compare h.1
    have hn : a.name = b.name := Std.LawfulEqCmp.eq_of_compare h.2
    cases a; cases b; simp_all

end FunctionKey

/-- A declared class: its name as it was first written, and the files that declare it. -/
structure ClassFiles where
  name : ClassName
  files : List Path
  deriving DecidableEq, Repr

structure Index where
  classes : SortedMap ClassKey ClassFiles := ∅
  /-- The first file that declares a function. -/
  functions : SortedMap FunctionKey Path := ∅
  /-- The number of files looked at. -/
  files : Nat := 0
  deriving DecidableEq, Repr

inductive Declaration where
  | classLike (namespaceName name : String)
  /-- A method, or a free function if the class is empty. -/
  | function (namespaceName className name : String)
  deriving DecidableEq, Repr

namespace Declaration

def ofClass (masked : List Char) (c : Source.ClassSpan) :
    Except Source.ScanError (List Declaration) := do
  let methods ← Source.methodSpans masked c
  return .classLike c.namespaceName c.name :: methods.map fun m =>
    .function c.namespaceName c.name m.name

/-- The declarations of a source: the classes with their methods, then the free functions. -/
def ofSource (source : String) : Except Source.ScanError (List Declaration) := do
  let masked := Source.mask source.toList
  let classes := Source.classSpans masked
  let inClasses ← classes.mapM (ofClass masked)
  let free ← Source.freeFunctions masked classes
  return inClasses.flatten ++ free.map fun (space, f) => .function space "" f.name

end Declaration

namespace Index

def enter (path : Path) (index : Index) : Declaration → Index
  | .classLike space name =>
    { index with
      classes := index.classes.alter (.of space name) fun known =>
        let entry := known.getD ⟨.ofParts space name, []⟩
        if entry.files.any (·.same path) then entry
        else { entry with files := entry.files ++ [path] } }
  | .function space className name =>
    { index with functions := index.functions.insertIfNew (.of space className name) path }

def addSource (index : Index) (path : Path) (source : String) : Except Source.ScanError Index := do
  let declarations ← Declaration.ofSource source
  return declarations.foldl (enter path) { index with files := index.files + 1 }

/-- The index of all PHP files that the roots hold and the filter admits. Files that are no text are
passed over. -/
def build (t : FileTree) (roots : List Path) (filter : PathFilter) :
    Except Source.ScanError Index :=
  (filter.collect t roots).foldlM (fun index path =>
    match t.readText path with
    | .ok source => index.addSource path source
    | .error _ => .ok index) {}

def classFiles (index : Index) (namespaceName name : String) : List Path :=
  match index.classes.get? (.of namespaceName name) with
  | some entry => entry.files
  | none => []

/-- The name of a class as it was first declared. -/
def findClass? (index : Index) (namespaceName name : String) : Option ClassName :=
  (index.classes.get? (.of namespaceName name)).map (·.name)

def hasClass (index : Index) (namespaceName name : String) : Bool :=
  index.classes.contains (.of namespaceName name)

/-- The file that declares a method, or a free function if the class is empty. -/
def functionFile? (index : Index) (namespaceName className name : String) : Option Path :=
  index.functions.get? (.of namespaceName className name)

end Index
end SignatureInference
