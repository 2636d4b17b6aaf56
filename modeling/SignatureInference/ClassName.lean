import SignatureInference.Text.Blank

/-! # Class names

A class name is a name qualified by its namespace, without a backslash in front.
-/
namespace SignatureInference

/-- A fully qualified class name. -/
structure ClassName where
  text : String
  deriving DecidableEq, Repr, Inhabited

namespace ClassName

def dropLeadingBackslashes (cs : List Char) : List Char := cs.dropWhile (· == '\\')

def dropOuterBackslashes (cs : List Char) : List Char :=
  Text.dropEndWhile (· == '\\') (dropLeadingBackslashes cs)

/-- The class a name as written stands for: blanks around it and backslashes in front of it do not
count. -/
def ofText (text : String) : ClassName :=
  ⟨Text.onString (fun cs => dropLeadingBackslashes (Text.trim cs)) text⟩

def ofParts (namespaceName shortName : String) : ClassName :=
  if namespaceName == "" then ofText shortName
  else ofText (Text.onString dropOuterBackslashes namespaceName ++ "\\" ++ shortName)

/-- The namespace, empty for the global one. -/
def namespaceName (c : ClassName) : String :=
  match Text.breakOnLast? ['\\'] c.text.toList with
  | some (space, _) => String.ofList space
  | none => ""

def shortName (c : ClassName) : String :=
  match Text.breakOnLast? ['\\'] c.text.toList with
  | some (_, name) => String.ofList name
  | none => c.text

instance : Ord ClassName := ⟨compareOn text⟩

instance : Std.TransOrd ClassName := inferInstanceAs (Std.TransCmp (compareOn text))

instance : Std.LawfulEqOrd ClassName where
  eq_of_compare {a b} h := by
    have h : compare a.text b.text = .eq := h
    have : a.text = b.text := Std.LawfulEqCmp.eq_of_compare h
    cases a; cases b; simp_all

end ClassName
end SignatureInference
