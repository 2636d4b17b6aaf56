import SignatureInference.FileTree
import SignatureInference.Glob
import SignatureInference.PathFilter
import SignatureInference.Toml.Document

/-! # Configuration

The settings of a project, from a file in its directory or above. All settings are optional, and
keys that mean nothing are passed over. A section may also be an array with its values in order.
-/
namespace SignatureInference

structure Config where
  /-- Patterns of paths to leave out. -/
  exclude : List String := []
  traceFile : Option Path := none
  /-- The name of the storage for traces. -/
  storage : Option String := none
  widen : Bool := false
  /-- Whether doc comments count. -/
  useDocs : Bool := true
  /-- Whether traces count. -/
  useTrace : Bool := true
  /-- The name of the output format. -/
  format : Option String := none
  deriving DecidableEq, Repr

inductive ConfigFault where
  | unknownStorage (name : String)
  | badPattern (pattern : String) (e : Glob.PatternError)
  deriving DecidableEq, Repr

def ConfigFault.message : ConfigFault → String
  | unknownStorage name => s!"unknown trace storage '{name}', expected memory or file"
  | badPattern pattern e => s!"bad exclude pattern '{pattern}': {e.message}"

inductive ConfigError where
  | unreadable (path : Path) (e : FileError)
  /-- The file is no TOML, or a setting has the wrong type. -/
  | malformed (path : Path)
  | invalid (path : Path) (fault : ConfigFault)
  deriving DecidableEq, Repr

def ConfigError.message : ConfigError → String
  | unreadable path e => s!"Failed to read {path.text}: {e.message}"
  | malformed path => s!"Failed to parse {path.text}"
  | invalid path fault => s!"Invalid {path.text}: {fault.message}"

namespace Config

def fileName : String := ".phint.toml"

/-- The settings of a section by their names, which are given in order. A date is a table in
disguise, with a key that means nothing. -/
def settings? (names : List String) : Option Toml.Item → Option (String → Option Toml.Item)
  | none => some fun _ => none
  | some (.table _ fields) => some fun name => fields.lookup name
  | some (.inline fields) => some fun name => fields.lookup name
  | some (.array items) => some fun name => items[names.idxOf name]?
  | some (.tables elements) =>
    some fun name => elements[names.idxOf name]?.map (Toml.Item.table .header)
  | some (.moment _) => some fun _ => none
  | some _ => none

def text? : Toml.Item → Option String
  | .string text => some text
  | _ => none

def flag? : Toml.Item → Option Bool
  | .boolean b => some b
  | _ => none

def texts? : Toml.Item → Option (List String)
  | .array items => items.mapM text?
  | _ => none

/-- A setting of the right type, or its default if it is missing. -/
def setting? {α : Type} (read? : Toml.Item → Option α) (default : α) :
    Option Toml.Item → Option α
  | none => some default
  | some item => read? item

def optional? {α : Type} (read? : Toml.Item → Option α) (item : Option Toml.Item) :
    Option (Option α) :=
  setting? (fun item => (read? item).map some) none item

/-- The configuration that a document holds, if all settings have the right types. -/
def ofFields? (fields : Toml.Fields) : Option Config := do
  let inPaths ← settings? ["exclude"] (fields.lookup "paths")
  let inTrace ← settings? ["file", "storage"] (fields.lookup "trace")
  let inAnalysis ← settings? ["widen", "static", "dynamic"] (fields.lookup "analysis")
  let inOutput ← settings? ["format"] (fields.lookup "output")
  return {
    exclude := ← setting? texts? [] (inPaths "exclude")
    traceFile := (← optional? text? (inTrace "file")).map Path.mk
    storage := ← optional? text? (inTrace "storage")
    widen := ← setting? flag? false (inAnalysis "widen")
    useDocs := ← setting? flag? true (inAnalysis "static")
    useTrace := ← setting? flag? true (inAnalysis "dynamic")
    format := ← optional? text? (inOutput "format") }

def storageNames : List String := ["memory", "file"]

def fault? (c : Config) : Option ConfigFault :=
  match c.storage.filter (!storageNames.contains ·) with
  | some name => some (.unknownStorage name)
  | none =>
    c.exclude.findSome? fun pattern =>
      match Glob.read (Text.onString (Text.dropEndWhile (· == '/')) pattern) with
      | .ok _ => none
      | .error e => some (.badPattern pattern e)

def filter (c : Config) : PathFilter := ⟨c.exclude⟩

/-- The configuration in a text; `path` is the file the text is from. -/
def ofText (path : Path) (text : String) : Except ConfigError Config :=
  match (Toml.read? text).bind ofFields? with
  | none => .error (.malformed path)
  | some c =>
    match c.fault? with
    | some fault => .error (.invalid path fault)
    | none => .ok c

def load (files : FileTree) (path : Path) : Except ConfigError Config :=
  match files.readText path with
  | .error e => .error (.unreadable path e)
  | .ok text => ofText path text

/-- Looks for a configuration in a directory and in those above it, and loads the first. -/
def find (files : FileTree) (start : Path) : Except ConfigError (Option (Config × Path)) :=
  match (start.selfAndParents.map (·.join fileName)).find? files.holds with
  | none => .ok none
  | some path => (load files path).map fun c => some (c, path)

end Config
end SignatureInference
