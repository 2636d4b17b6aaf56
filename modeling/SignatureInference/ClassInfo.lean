import SignatureInference.Path
import SignatureInference.SortedMap
import SignatureInference.TypeValue

/-! # Classes

What is known of a class: its declaration, or only that something refers to it.
-/
namespace SignatureInference

inductive ClassKind where
  | ordinary
  | interface
  | trait
  | enum
  /-- Seen only as something referred to. -/
  | unknown
  deriving DecidableEq, Repr

def ClassKind.word : ClassKind → String
  | .ordinary => "class"
  | .interface => "interface"
  | .trait => "trait"
  | .enum => "enum"
  | .unknown => "unknown"

structure ClassInfo where
  name : ClassName
  kind : ClassKind := .unknown
  /-- The class that this one extends. -/
  parent : Option ClassName := none
  /-- The interfaces that this class implements, or that this interface extends. -/
  interfaces : List ClassName := []
  methods : SortedSet String := ∅
  /-- The file of the declaration. -/
  path : Option Path := none
  /-- The imports of that file: alias and qualified name. -/
  imports : SortedMap String String := ∅
  /-- Whether a declaration has been seen. -/
  declared : Bool := false
  deriving DecidableEq, Repr

namespace ClassInfo

/-- A class known from its declaration. -/
def declaredAs (name : ClassName) (kind : ClassKind) : ClassInfo :=
  { name, kind, declared := true }

def type (c : ClassInfo) : TypeValue := .ofClass c.name

/-- The classes right above this one, the extended class first. -/
def above (c : ClassInfo) : List ClassName := c.parent.toList ++ c.interfaces

def addMethod (c : ClassInfo) (name : String) : ClassInfo :=
  { c with methods := c.methods.insert name () }

/-- Adds whatever `other` knows and `c` does not. Method names are united. -/
def merge (c other : ClassInfo) : ClassInfo :=
  { c with
    kind := if c.kind = .unknown then other.kind else c.kind
    parent := c.parent.or other.parent
    interfaces := if c.interfaces.isEmpty then other.interfaces else c.interfaces
    path := c.path.or other.path
    imports := if c.imports.isEmpty then other.imports else c.imports
    methods := c.methods.union other.methods
    declared := c.declared || other.declared }

end ClassInfo
end SignatureInference
