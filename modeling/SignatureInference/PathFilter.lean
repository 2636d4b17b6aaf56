import SignatureInference.FileTree
import SignatureInference.Glob

/-! # Excluded paths

A list of patterns says which paths are left out. A pattern that ends with a slash names a directory
and leaves out all paths with that directory in them; any other is a glob for the whole path or for
the file name.
-/
namespace SignatureInference

/-- The patterns of the paths to leave out. -/
structure PathFilter where
  patterns : List String := []
  deriving DecidableEq, Repr

namespace PathFilter

/-- What follows the last slash or backslash. -/
def fileName (path : List Char) : List Char :=
  (path.reverse.takeWhile fun c => c != '/' && c != '\\').reverse

/-- Whether one pattern leaves a path out. A faulty pattern leaves out nothing. -/
def patternExcludes (pattern : String) (path : String) : Bool :=
  let path := path.toList
  match Text.dropLast? ['/'] pattern.toList with
  | some _ =>
    let directory := Text.dropEndWhile (· == '/') pattern.toList
    Text.contains ('/' :: directory ++ ['/']) path || Text.startsWith (directory ++ ['/']) path
  | none =>
    match Glob.read pattern with
    | .ok tokens => Glob.fits tokens path || Glob.fits tokens (fileName path)
    | .error _ => false

def excludes (f : PathFilter) (path : String) : Bool :=
  f.patterns.any (patternExcludes · path)

/-- The PHP files that the given files and directories hold and that are not left out, sorted. A
file that is given itself needs no particular extension. -/
def collect (f : PathFilter) (t : FileTree) (roots : List Path) : List Path :=
  Path.sortDistinct (roots.flatMap fun root =>
    if t.isFile root then (if f.excludes root.text then [] else [root])
    else if t.isDirectory root then
      (t.filesBelow root).filter fun p => p.extension? == some "php" && !f.excludes p.text
    else [])

end PathFilter
end SignatureInference
