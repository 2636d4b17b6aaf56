import SignatureInference.CommandLine.Run
import Std.Time.Format
import Std.Time.Zoned

/-! # The program

Loads the files that a run can look at, runs, and carries out what the run says: prints its output
and writes the changed files and the log.
-/
namespace SignatureInference.CommandLine

def pathText (place : List String) : String := "/" ++ "/".intercalate place

/-- Loads what is at a place, with all that is below it. What cannot be read is left out. -/
partial def loadPlace (files : FileTree) (place : List String) : IO FileTree := do
  try
    let path ← IO.FS.realPath (pathText place)
    if ← path.isDir then
      (← path.readDir).foldlM (fun files entry => loadPlace files (place ++ [entry.fileName]))
        (files.put place .directory)
    else
      return files.put place (.file (.ofBytes (← IO.FS.readBinFile path).toList))
  catch _ => return files

def loadPaths (files : FileTree) (paths : List Path) : IO FileTree :=
  paths.foldlM (fun files path => loadPlace files (files.placeOf path)) files

/-- Notes which of some places are directories, without what is in them. -/
def loadDirectories (files : FileTree) (places : List (List String)) : IO FileTree :=
  places.foldlM (fun files place => do
    try
      let path ← IO.FS.realPath (pathText place)
      return if ← path.isDir then files.put place .directory else files
    catch _ => return files) files

/-- Loads all that a run can look at. -/
def loadFiles (base : List String) (args : Arguments) (logPath : Path) : IO FileTree := do
  let files := FileTree.ofBase base
  let files ← loadPaths files (configPaths files.workingDirectory args)
  let config := ((loadConfig files args).run.run { files }).1.toOption.getD {}
  let files ← loadPaths files (inputPaths args config)
  let log := files.placeOf ((args.log.bind id).getD logPath)
  loadDirectories files [log.dropLast, log]

def saveFiles (before after : FileTree) : IO Unit :=
  after.nodes.entries.forM fun (place, node) =>
    match node with
    | .file contents =>
      if before.nodes.get? place == some node then return
      else IO.FS.writeBinFile (pathText place) ⟨contents.bytes.toArray⟩
    | .directory => return

/-- Writes the log, each line with the time. -/
def saveLog (files : FileTree) (log : Option (Path × List String)) : IO Unit := do
  let some (path, lines) := log | return
  let time := (← Std.Time.PlainDateTime.now).format "uuuu-MM-dd HH:mm:ss.SSS"
  IO.FS.writeFile (pathText (files.placeOf path)) (unlines (lines.map (s!"[{time}] " ++ ·)))

end SignatureInference.CommandLine

open SignatureInference in
def main (words : List String) : IO UInt32 := do
  let directory : Path := ⟨(← IO.currentDir).toString⟩
  let base := FileTree.placeOf {} directory
  let stamp := (← Std.Time.PlainDateTime.now).format "uuuuMMdd_HHmmss"
  let defaultLog : Path := ⟨s!"/tmp/phint-{stamp}.log"⟩
  let files ←
    match CommandLine.Arguments.read words with
    | .ok args => CommandLine.loadFiles base args defaultLog
    | .error _ => pure {}
  let ran := CommandLine.execute { files, defaultLog } words
  IO.print ran.out
  IO.eprint ran.err
  CommandLine.saveFiles files ran.files
  CommandLine.saveLog ran.files ran.log
  return ran.exit.code
