import SignatureInference.Analysis
import SignatureInference.CommandLine.Output
import SignatureInference.Config

/-! # Runs

A run reads a command line and the configuration, analyses the sources, carries out the
instructions, and prints what it did. Its input is the files as they are and its result the files as
they should be, together with what it prints.
-/
namespace SignatureInference.CommandLine

structure Environment where
  files : FileTree
  /-- The place of a log that is wanted without a path. -/
  defaultLog : Path
  deriving DecidableEq, Repr

inductive RunError where
  | config (e : ConfigError)
  | unknownFormat (name : String)
  | unwritableLog (e : FileError)
  | noSources
  | unknownStorage (name : String)
  | missingTrace (path : Path)
  | analysis (e : AnalysisError)
  | edit (i : Instruction) (e : AnalysisError)
  deriving DecidableEq, Repr

namespace RunError

def message : RunError → String
  | config e => e.message
  | unknownFormat name => s!"Invalid output format '{name}'. Valid options: text, json, diff"
  | unwritableLog e => s!"Failed to open log file: {e.message}"
  | noSources => "No source paths to analyze"
  | unknownStorage name => s!"Invalid storage '{name}'. Valid options: memory, file"
  | missingTrace path => s!"Trace file does not exist: {path.text}"
  | analysis e => s!"Analysis failed: {e.fullMessage}"
  | edit i e => s!"Failed to apply: {i.display}: {e.fullMessage}"

/-- Whether the run ends at once and tells nothing. -/
def aborts : RunError → Bool
  | analysis e | edit _ e => e.kind == .abort
  | _ => false

end RunError

inductive Exit where
  | done
  /-- There are changes that were not written. -/
  | pending
  | failed
  | misused
  | aborted
  deriving DecidableEq, Repr

def Exit.code : Exit → UInt32
  | done => 0
  | failed => 1
  | pending | misused => 2
  | aborted => 134

/-- How a run ends that comes to its report. -/
def Account.exit (a : Account) : Exit :=
  if a.mode = .check && a.summary.filesWithChanges > 0 then .pending else .done

/-- What a run has printed and written so far. -/
structure Progress where
  files : FileTree
  out : String := ""
  err : String := ""
  logFile : Option Path := none
  log : Array String := #[]
  deriving DecidableEq, Repr

abbrev Session := ExceptT RunError (StateM Progress)

namespace Session

def print (lines : List String) : Session Unit :=
  modify fun (p : Progress) => { p with out := p.out ++ unlines lines }

/-- Prints lines about the run itself. -/
def remark (lines : List String) : Session Unit :=
  modify fun (p : Progress) => { p with err := p.err ++ unlines lines }

def logged {α : Type} (x : Logged α) : Session α := do
  let p : Progress ← get
  let (result, log) := x.run.run p.log
  set { p with log }
  match result with
  | .ok a => return a
  | .error e => throw (.analysis e)

def configured {α : Type} : Except ConfigError α → Session α
  | .ok a => return a
  | .error e => throw (.config e)

end Session

open Session

def loadConfig (files : FileTree) (args : Arguments) : Session Config := do
  if args.noConfig then return {}
  match args.config with
  | some path => configured (Config.load files path)
  | none =>
    match ← configured (Config.find files files.workingDirectory) with
    | none => return {}
    | some (c, path) =>
      if args.verbose then remark [s!"Using config: {path.text}"]
      return c

/-- Where the configuration of a run may be. -/
def configPaths (workingDirectory : Path) (args : Arguments) : List Path :=
  match args.config with
  | some path => [path]
  | none => workingDirectory.selfAndParents.map (·.join Config.fileName)

/-- The paths whose files a run reads, apart from its configuration. -/
def inputPaths (args : Arguments) (config : Config) : List Path :=
  args.paths ++ (args.trace <|> config.traceFile).toList

def openLog (env : Environment) (args : Arguments) (text : Bool) : Session Unit := do
  let some target := args.log | return
  let path := target.getD env.defaultLog
  let p : Progress ← get
  match p.files.write path (.text "") with
  | .ok files => set { p with files, logFile := some path }
  | .error e => throw (.unwritableLog e)
  if text then print [s!"Logging to: {path.text}"]

/-- The storage with the given name. A storage that keeps files has a directory of its own. -/
def storageKind : Option String → Session Trace.StorageKind
  | none | some "memory" => return .memory
  | some "file" => return .file ⟨"trace-store"⟩
  | some name => throw (.unknownStorage name)

/-- Carries out the instructions of a report. -/
def revise (args : Arguments) (index : Index) (report : Report) : Session Account := do
  let p : Progress ← get
  let revision := Revision.run { index, dryRun := args.mode = .check, files := p.files }
    report.instructions
  logged (Log.tell (Log.sectionHead "EDITS" ++
    revision.results.flatMap (fun (i, outcome) => Log.edited i outcome) ++
    (revision.failure.toList.map fun (i, _) => Log.instruction i)))
  modify fun (p : Progress) => { p with files := revision.editor.files }
  return { mode := args.mode, report, revision }

def session (env : Environment) (args : Arguments) : Session Exit := do
  let config ← loadConfig env.files args
  let formatName := (args.format <|> config.format).getD "text"
  let some format := Format.ofName? formatName | throw (.unknownFormat formatName)
  let isText := format == .text
  let chatty := args.verbose && isText
  openLog env args isText
  let files := (← get).files
  let (roots, missing) := args.paths.partition files.holds
  if isText then remark (missing.map fun p => s!"Warning: Path does not exist: {p.text}")
  if roots.isEmpty then throw .noSources
  let trace := args.trace <|> config.traceFile
  let storage ← storageKind (args.storage <|> config.storage)
  if chatty then
    let sources := ", ".intercalate (roots.map (·.text))
    print ([s!"Mode: {args.mode.name}", s!"Sources: {sources}"] ++
      trace.toList.map (fun t => s!"Trace: {t.text}") ++ [""])
  logged (Log.tell (Log.sectionHead "DECLARATION INDEX"))
  let index ← logged (Log.attempt .scan (Index.build files roots config.filter))
  logged (Log.tell [Log.indexed index])
  let useTrace := !args.noDynamic && config.useTrace
  if useTrace then
    match trace with
    | some path => if !files.isFile path then throw (.missingTrace path)
    | none => if chatty then remark ["Note: No trace file given, using static analysis only"]
  let settings : Settings := {
    roots, storage
    filter := config.filter
    useDocs := !args.noStatic && config.useDocs
    trace := if useTrace then trace else none }
  let r ← logged (Analysis.run files {} index settings)
  let report ← logged (Analysis.decide r (args.widen || config.widen))
  let account ← revise args index report
  if chatty then print (account.conflictLines ++ account.skippedLines)
  if let some (i, e) := account.revision.failure then throw (.edit i e)
  modify fun (p : Progress) => { p with out := p.out ++ account.output format }
  return account.exit

structure Execution where
  exit : Exit
  out : String := ""
  err : String := ""
  files : FileTree
  /-- The log file and its lines. -/
  log : Option (Path × List String) := none
  deriving DecidableEq, Repr

def usageLine : String := "Usage: phint [OPTIONS] [PATHS]..."

def helpLines : List String :=
  ["Infer and add missing type declarations in PHP projects",
   "",
   usageLine,
   "",
   "Arguments:",
   "  [PATHS]...  Source files or directories to analyze [default: .]",
   "",
   "Options:",
   "  -t, --trace <FILE>       " ++
     "Xdebug function trace (computerized format) recorded from the test suite",
   "      --fix                Write the inferred declarations to the files",
   "  -n, --dry-run            Show changes without applying them (default mode)",
   "      --widen              Widen conflicting object types to their closest shared ancestor",
   "      --no-static          Skip doc comment analysis",
   "      --no-dynamic         Skip trace analysis",
   "      --storage <STORAGE>  Trace storage backend: memory, file",
   "      --format <FORMAT>    Output format: text, json, diff",
   "      --json               Shorthand for --format json",
   "      --config <PATH>      Path to config file (default: auto-detect .phint.toml)",
   "      --no-config          Ignore config files",
   "      --log [<PATH>]       Write a detailed log (default: /tmp/phint-<timestamp>.log)",
   "  -v, --verbose            Show verbose output",
   "  -h, --help               Print help",
   "  -V, --version            Print version"]

/-- Runs the program on the words of a command line. -/
def execute (env : Environment) (words : List String) : Execution :=
  match Arguments.read words with
  | .error .help => { exit := .done, out := unlines helpLines, files := env.files }
  | .error .version => { exit := .done, out := s!"phint {version}\n", files := env.files }
  | .error (.usage e) =>
    { exit := .misused
      err := unlines ["error: " ++ e.message, "", usageLine, "",
        "For more information, try '--help'."]
      files := env.files }
  | .ok args =>
    let (result, p) := (session env args).run.run { files := env.files }
    let (exit, trouble) :=
      match result with
      | .ok exit => (exit, [])
      | .error e => if e.aborts then (Exit.aborted, []) else (.failed, ["Error: " ++ e.message])
    { exit, out := p.out, err := p.err ++ unlines trouble, files := p.files
      log := p.logFile.map fun path => (path, p.log.toList) }

end SignatureInference.CommandLine
