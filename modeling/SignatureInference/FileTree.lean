import SignatureInference.Path
import SignatureInference.SortedMap
import SignatureInference.Text.Utf8

/-! # File trees

The files of a file system as a value: every place is named by the list of names that leads to it
from the root. Relative paths begin at the working directory. Reading and writing files are
functions on such a value.
-/
namespace SignatureInference

/-- What a file holds: a text, or bytes that are no UTF-8 text. -/
inductive Contents where
  | text (text : String)
  | binary (bytes : List UInt8)
  deriving DecidableEq, Repr

def Contents.ofBytes (bytes : List UInt8) : Contents :=
  match Text.decode? bytes with
  | some cs => .text (String.ofList cs)
  | none => .binary bytes

def Contents.bytes : Contents → List UInt8
  | text s => s.toUTF8.toList
  | binary bytes => bytes

def Contents.append : Contents → String → Contents
  | text s, more => .text (s ++ more)
  | binary bytes, more => .binary (bytes ++ more.toUTF8.toList)

inductive FileError where
  | missing
  | notDirectory
  | isDirectory
  | alreadyExists
  /-- The file is no UTF-8 text. -/
  | notText
  deriving DecidableEq, Repr

def FileError.message : FileError → String
  | missing => "No such file or directory (os error 2)"
  | notDirectory => "Not a directory (os error 20)"
  | isDirectory => "Is a directory (os error 21)"
  | alreadyExists => "File exists (os error 17)"
  | notText => "stream did not contain valid UTF-8"

/-- What is at a place. -/
inductive Node where
  | directory
  | file (contents : Contents)
  deriving DecidableEq, Repr

structure FileTree where
  nodes : SortedMap (List String) Node := ∅
  /-- The place of the working directory. -/
  base : List String := []
  deriving DecidableEq, Repr

namespace FileTree

def workingDirectory (t : FileTree) : Path := ⟨"/" ++ "/".intercalate t.base⟩

/-- What is at a place; the root is always there. -/
def node? (t : FileTree) (place : List String) : Option Node :=
  if place = [] then some .directory else t.nodes.get? place

/-- Follows the steps of a path from a place. Every place on the way has to be a directory, and the
last one has to exist. -/
def follow (t : FileTree) (place : List String) : List Component → Except FileError (List String)
  | [] => .ok place
  | step :: steps =>
    match t.node? place with
    | none => .error .missing
    | some (.file _) => .error .notDirectory
    | some .directory =>
      match step with
      | .root => t.follow [] steps
      | .here => t.follow place steps
      | .up => t.follow place.dropLast steps
      | .name s =>
        if (t.node? (place ++ [s])).isSome then t.follow (place ++ [s]) steps
        else .error .missing

/-- The place a path leads to. A path that ends with a slash leads to directories only. -/
def resolve (t : FileTree) (p : Path) : Except FileError (List String) := do
  if p.text == "" then throw .missing
  let place ← t.follow t.base p.components
  match t.node? place with
  | some (.file _) =>
    if Text.endsWith ['/'] p.text.toList then throw .notDirectory else return place
  | _ => return place

def lookup (t : FileTree) (p : Path) : Except FileError Node := do
  let place ← t.resolve p
  match t.node? place with
  | some node => return node
  | none => throw .missing

def isFile (t : FileTree) (p : Path) : Bool :=
  match t.lookup p with
  | .ok (.file _) => true
  | _ => false

def isDirectory (t : FileTree) (p : Path) : Bool :=
  match t.lookup p with
  | .ok .directory => true
  | _ => false

def holds (t : FileTree) (p : Path) : Bool := (t.lookup p).toBool

def read (t : FileTree) (p : Path) : Except FileError Contents := do
  match ← t.lookup p with
  | .file contents => return contents
  | .directory => throw .isDirectory

def readText (t : FileTree) (p : Path) : Except FileError String := do
  match ← t.read p with
  | .text s => return s
  | .binary _ => throw .notText

/-- The place that the steps of a path name, whether or not something is there. -/
def placeOf (t : FileTree) (p : Path) : List String :=
  p.components.foldl (fun place step =>
    match step with
    | .root => []
    | .here => place
    | .up => place.dropLast
    | .name s => place ++ [s]) t.base

/-- The place a path leads to, where only the last name may be missing. -/
def resolveNew (t : FileTree) (p : Path) : Except FileError (List String) := do
  match p.components.getLast? with
  | some (.name s) =>
    let parent ← t.follow t.base p.components.dropLast
    match t.node? parent with
    | some .directory =>
      if Text.endsWith ['/'] p.text.toList then throw .isDirectory else return parent ++ [s]
    | some (.file _) => throw .notDirectory
    | none => throw .missing
  | some _ => throw .isDirectory
  | none => throw .missing

def write (t : FileTree) (p : Path) (contents : Contents) : Except FileError FileTree := do
  let place ← t.resolveNew p
  match t.node? place with
  | some .directory => throw .isDirectory
  | _ => return { t with nodes := t.nodes.insert place (.file contents) }

/-- Writes a text at the end of a file, which is made if it is missing. -/
def append (t : FileTree) (p : Path) (more : String) : Except FileError FileTree := do
  let place ← t.resolveNew p
  match t.node? place with
  | some .directory => throw .isDirectory
  | some (.file contents) =>
    return { t with nodes := t.nodes.insert place (.file (contents.append more)) }
  | none => return { t with nodes := t.nodes.insert place (.file (.text more)) }

/-- Puts something at a place, and directories at all places that lead to it. -/
def put (t : FileTree) (place : List String) (node : Node) : FileTree :=
  let above := (List.range place.length).map place.take
  let nodes := above.foldl (fun ns q => if q = [] then ns else ns.insertIfNew q .directory) t.nodes
  { t with nodes := if place = [] then nodes else nodes.insert place node }

/-- The file system that has only the working directory. -/
def ofBase (base : List String) : FileTree := { (put {} base .directory) with base }

/-- Makes a directory and those above it, where they are missing. -/
def makeDirectories (t : FileTree) (p : Path) : Except FileError FileTree :=
  let make (state : Except FileError (FileTree × List String)) (step : Component) := do
    let (t, place) ← state
    match step with
    | .name s =>
      let next := place ++ [s]
      match t.node? next with
      | some .directory => return (t, next)
      | some (.file _) => throw .alreadyExists
      | none => return ({ t with nodes := t.nodes.insert next .directory }, next)
    | .here => return (t, place)
    | .up => return (t, place.dropLast)
    | .root => return (t, [])
  (p.components.foldl make (.ok (t, t.base))).map (·.1)

def remove (t : FileTree) (p : Path) : Except FileError FileTree := do
  let place ← t.resolve p
  match t.node? place with
  | some (.file _) => return { t with nodes := t.nodes.erase place }
  | _ => throw .isDirectory

/-- The paths of all files below a directory, as they follow from the path of the directory. -/
def filesBelow (t : FileTree) (root : Path) : List Path :=
  match t.resolve root with
  | .error _ => []
  | .ok place =>
    t.nodes.entries.filterMap fun (q, node) =>
      match node with
      | .directory => none
      | .file _ =>
        if place.isPrefixOf q then some ((q.drop place.length).foldl Path.join root) else none

end FileTree
end SignatureInference
