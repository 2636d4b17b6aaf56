import SignatureInference.Path

/-! # Arguments

The words of a command line. Options have long names, some also short ones; several short options
may stand in one word. The value of an option is the next word, or follows it after an equals sign
or, for a short option, immediately. After a word of two hyphens all words are paths.
-/
namespace SignatureInference.CommandLine

/-- The options without a value. -/
inductive Flag where
  | fix
  | dryRun
  | widen
  | noStatic
  | noDynamic
  | json
  | noConfig
  | verbose
  | help
  | version
  deriving DecidableEq, Repr

namespace Flag

def all : List Flag :=
  [fix, dryRun, widen, noStatic, noDynamic, json, noConfig, verbose, help, version]

def name : Flag → String
  | fix => "fix"
  | dryRun => "dry-run"
  | widen => "widen"
  | noStatic => "no-static"
  | noDynamic => "no-dynamic"
  | json => "json"
  | noConfig => "no-config"
  | verbose => "verbose"
  | help => "help"
  | version => "version"

def letter? : Flag → Option Char
  | dryRun => some 'n'
  | verbose => some 'v'
  | help => some 'h'
  | version => some 'V'
  | _ => none

end Flag

/-- The options with a value. -/
inductive Valued where
  | trace
  | storage
  | format
  | config
  | log
  deriving DecidableEq, Repr

namespace Valued

def all : List Valued := [trace, storage, format, config, log]

def name : Valued → String
  | trace => "trace"
  | storage => "storage"
  | format => "format"
  | config => "config"
  | log => "log"

def letter? : Valued → Option Char
  | trace => some 't'
  | _ => none

/-- Whether the value is a path, which may not be empty. -/
def isPath : Valued → Bool
  | trace | config | log => true
  | storage | format => false

def needsValue : Valued → Bool
  | log => false
  | _ => true

end Valued

inductive Switch where
  | flag (f : Flag)
  | valued (v : Valued)
  deriving DecidableEq, Repr

namespace Switch

def display : Switch → String
  | flag f => "--" ++ f.name
  | valued .trace => "--trace <FILE>"
  | valued .storage => "--storage <STORAGE>"
  | valued .format => "--format <FORMAT>"
  | valued .config => "--config <PATH>"
  | valued .log => "--log [<PATH>]"

def all : List Switch := Flag.all.map flag ++ Valued.all.map valued

/-- The long name. -/
def name : Switch → String
  | flag f => f.name
  | valued v => v.name

/-- The short name. -/
def letter? : Switch → Option Char
  | flag f => f.letter?
  | valued v => v.letter?

/-- The option that may not be given together with another one. -/
def rival? : Switch → Option Switch
  | flag .fix => some (flag .dryRun)
  | flag .dryRun => some (flag .fix)
  | flag .json => some (valued .format)
  | valued .format => some (flag .json)
  | _ => none

end Switch

inductive UsageError where
  | unknown (word : String)
  | missingValue (owner : String)
  | needlessValue (value : String) (f : Flag)
  | repeated (s : Switch)
  | conflict (s t : Switch)
  deriving DecidableEq, Repr

def UsageError.message : UsageError → String
  | unknown word => s!"unexpected argument '{word}' found"
  | missingValue owner => s!"a value is required for '{owner}' but none was supplied"
  | needlessValue value f =>
    s!"unexpected value '{value}' for '--{f.name}' found; no more were expected"
  | repeated s => s!"the argument '{s.display}' cannot be used multiple times"
  | conflict s t => s!"the argument '{s.display}' cannot be used with '{t.display}'"

/-- What ends the reading of a command line early. -/
inductive Stop where
  | usage (e : UsageError)
  | help
  | version
  deriving DecidableEq, Repr

/-- A part of a command line. -/
inductive Part where
  | flag (f : Flag)
  | valued (v : Valued) (value : Option String)
  /-- Paths that follow each other. -/
  | paths (words : List String)
  deriving DecidableEq, Repr

def Part.switch? : Part → Option Switch
  | flag f => some (.flag f)
  | valued v _ => some (.valued v)
  | paths _ => none

/-- The parts read so far. The last one may be unfinished: an option waits for its value, and paths
for further ones. It is checked when the next part begins. -/
structure Reading where
  parts : List Part := []
  unfinished : Option Part := none
  deriving DecidableEq, Repr

namespace Reading

/-- Adds an option, which may not be there twice. -/
def add (r : Reading) (p : Part) (s : Switch) : Except Stop Reading :=
  if r.parts.any (·.switch? == some s) then .error (.usage (.repeated s))
  else .ok { r with parts := r.parts ++ [p] }

def finish (r : Reading) : Except Stop Reading :=
  let finished : Reading := { r with unfinished := none }
  match r.unfinished with
  | none => .ok finished
  | some (.flag f) => finished.add (.flag f) (.flag f)
  | some (.valued v none) =>
    if v.needsValue then .error (.usage (.missingValue (Switch.valued v).display))
    else finished.add (.valued v none) (.valued v)
  | some (.valued v (some value)) => do
    let added ← finished.add (.valued v (some value)) (.valued v)
    if v.isPath && value == "" then throw (.usage (.missingValue (Switch.valued v).display))
    return added
  | some (.paths words) =>
    if words.contains "" then .error (.usage (.missingValue "[PATHS]..."))
    else .ok { finished with parts := r.parts ++ [.paths words] }

/-- Begins a part, which ends the one before it. -/
def start (r : Reading) (p : Part) : Except Stop Reading := do
  return { ← r.finish with unfinished := some p }

/-- Reads a part that nothing can be added to. -/
def take (r : Reading) (p : Part) : Except Stop Reading := do (← r.start p).finish

def takeFlag (r : Reading) : Flag → Except Stop Reading
  | .help => do
    let _ ← r.finish
    throw .help
  | .version => do
    let _ ← r.finish
    throw .version
  | f => r.take (.flag f)

def takePath (r : Reading) (word : String) : Except Stop Reading :=
  match r.unfinished with
  | some (.paths words) => .ok { r with unfinished := some (.paths (words ++ [word])) }
  | _ => r.start (.paths [word])

def takeLong (r : Reading) (name : String) (value : Option String) : Except Stop Reading :=
  match Switch.all.find? (·.name == name), value with
  | none, _ => .error (.usage (.unknown ("--" ++ name)))
  | some (.flag f), some value => .error (.usage (.needlessValue value f))
  | some (.flag f), none => r.takeFlag f
  | some (.valued v), some value => r.take (.valued v (some value))
  | some (.valued v), none => r.start (.valued v none)

/-- Reads options with short names. -/
def takeShort (r : Reading) : List Char → Except Stop Reading
  | [] => .ok r
  | c :: rest =>
    match Switch.all.find? (·.letter? == some c) with
    | none => .error (.usage (.unknown (String.ofList ['-', c])))
    | some (.flag f) => do (← r.takeFlag f).takeShort rest
    | some (.valued v) =>
      match rest with
      | [] => r.start (.valued v none)
      | '=' :: value => r.take (.valued v (some (String.ofList value)))
      | value => r.take (.valued v (some (String.ofList value)))

/-- Reads a word that is no option: the value that an option waits for, or a path. -/
def takeWord (r : Reading) (word : String) : Except Stop Reading :=
  match r.unfinished with
  | some (.valued v none) => .ok { r with unfinished := some (.valued v (some word)) }
  | _ => r.takePath word

def takeAll (r : Reading) : List String → Except Stop Reading
  | [] => r.finish
  | word :: words =>
    match word.toList with
    | ['-', '-'] => do (← words.foldlM takePath r).finish
    | '-' :: '-' :: option => do
      let name := option.takeWhile (· != '=')
      let value := (option.drop name.length).tail?
      (← r.takeLong (String.ofList name) (value.map String.ofList)).takeAll words
    | '-' :: c :: letters => do (← r.takeShort (c :: letters)).takeAll words
    | _ => do (← r.takeWord word).takeAll words

/-- Checks that no option is given together with its rival. -/
def check (r : Reading) : Except Stop Unit :=
  let switches := r.parts.filterMap Part.switch?
  switches.forM fun s =>
    match s.rival? with
    | some t => if switches.contains t then .error (.usage (.conflict s t)) else .ok ()
    | none => .ok ()

end Reading

/-- Whether changes are only shown, or written to the files. -/
inductive Mode where
  | check
  | fix
  deriving DecidableEq, Repr

def Mode.name : Mode → String
  | check => "check"
  | fix => "fix"

structure Arguments where
  paths : List Path := [⟨"."⟩]
  mode : Mode := .check
  trace : Option Path := none
  widen : Bool := false
  noStatic : Bool := false
  noDynamic : Bool := false
  storage : Option String := none
  format : Option String := none
  config : Option Path := none
  noConfig : Bool := false
  /-- The file for the log, if one is wanted; without a path its place is chosen. -/
  log : Option (Option Path) := none
  verbose : Bool := false
  deriving DecidableEq, Repr

namespace Arguments

def ofParts (parts : List Part) : Arguments :=
  let has (f : Flag) := parts.contains (.flag f)
  let value? (v : Valued) := parts.findSome? fun
    | .valued w value => if v = w then some value else none
    | _ => none
  let paths := parts.flatMap fun
    | .paths words => words.map Path.mk
    | _ => []
  { paths := if paths.isEmpty then [⟨"."⟩] else paths
    mode := if has .fix then .fix else .check
    trace := (value? .trace).join.map Path.mk
    widen := has .widen
    noStatic := has .noStatic
    noDynamic := has .noDynamic
    storage := (value? .storage).join
    format := if has .json then some "json" else (value? .format).join
    config := (value? .config).join.map Path.mk
    noConfig := has .noConfig
    log := (value? .log).map (·.map Path.mk)
    verbose := has .verbose }

def read (words : List String) : Except Stop Arguments := do
  let r ← Reading.takeAll {} words
  r.check
  return ofParts r.parts

end Arguments
end SignatureInference.CommandLine
