import ShadowTaint.Files.Disk
import ShadowTaint.Settings.Json
import ShadowTaint.Toml.Reader
/-!
# Settings in a file

The choices of a run can be written in a TOML file, which is looked for in a directory and in the
directories around it. A choice that the file does not make keeps its default; one that is made
with a value of the wrong type makes the whole file invalid; a name that is no choice leads to a
warning.

## Main definitions

- `Settings.ofToml?`: the choices that a document makes.
- `Settings.load`: the choices in a file, with the warnings.
- `Settings.findFile`: the file that counts for a directory.
-/

namespace ShadowTaint

/-- Why there are no settings in a file. -/
inductive SettingsFault where
  | unreadable (path : String) (fault : FileFault)
  | malformed (path : String)
deriving DecidableEq, Repr

/-- What a settings fault says. -/
def SettingsFault.message : SettingsFault → String
  | .unreadable path fault => s!"Failed to read config file '{path}': {fault.message}"
  | .malformed path => s!"Invalid TOML in '{path}'"

namespace Toml

/-- The truth value that a value is. -/
def bool? : Toml → Option Bool
  | .boolean b => some b
  | _ => none

/-- The natural number that a value is. -/
def nat? : Toml → Option Nat
  | .integer (.ofNat n) => some n
  | _ => none

/-- The text that a value is. -/
def text? : Toml → Option String
  | .string s => some s
  | _ => none

/-- Whether a value has no parts, where it could have some. -/
def isEmpty : Toml → Bool
  | .array [] => true
  | .tables [] => true
  | .table _ [] => true
  | _ => false

/-- What a table says under a name, or else a default. A value of the wrong type is refused. -/
def member? {α : Type} (ms : Members) (name : String) (read : Toml → Option α) (default : α) :
    Option α :=
  match Table.find name ms with
  | none => some default
  | some v => read v

/-- What an array says at a position, or else a default. -/
def item? {α : Type} (items : List Toml) (i : Nat) (read : Toml → Option α) (default : α) :
    Option α :=
  match items[i]? with
  | none => some default
  | some v => read v

end Toml

/-- The precision that a value stands for: its name, or a table in which an empty value has that
name. -/
def Precision.ofToml? : Toml → Option Precision
  | .string s => parse? s
  | .table _ [(name, v)] => if v.isEmpty then parse? name else none
  | _ => none

/-- The log details that a value chooses: by name, or in order. A date chooses none. -/
def LogFlags.ofToml? : Toml → Option LogFlags
  | .table _ ms => do
    return { explain := ← Toml.member? ms "explain" Toml.bool? false,
             debug := ← Toml.member? ms "debug" Toml.bool? false }
  | .array items => do
    return { explain := ← Toml.item? items 0 Toml.bool? false,
             debug := ← Toml.item? items 1 Toml.bool? false }
  | .tables items => if items.isEmpty then some {} else none
  | .moment _ => some {}
  | _ => none

/-- The precisions that a table assigns to classes of values. -/
def Levels.ofToml? : Toml → Option Levels
  | .table _ ms =>
    ms.foldlM (fun levels (name, v) => (Precision.ofToml? v).map (levels.set name)) {}
  | _ => none

namespace Settings

/-- The name of files with settings. -/
def fileName : String := "nodetaint.toml"

/-- The names of all choices. -/
def knownKeys : List String :=
  ["assert_passed", "eval_sink", "taint_paths", "taint_paths_json", "aggressive_sink_propagation",
   "sink_report", "log_level", "policies", "max_length", "output_dir"]

/-- The names of the log details. -/
def knownLogKeys : List String := ["explain", "debug"]

/-- The choices that a document makes. -/
def ofToml? (ms : Toml.Members) : Option Settings := do
  let s : Settings := {}
  return {
    assertPassed := ← Toml.member? ms "assert_passed" Toml.bool? s.assertPassed
    evalSink := ← Toml.member? ms "eval_sink" Toml.bool? s.evalSink
    taintPaths := ← Toml.member? ms "taint_paths" Toml.bool? s.taintPaths
    taintPathsJson := ← Toml.member? ms "taint_paths_json" Toml.bool? s.taintPathsJson
    aggressiveSinkPropagation :=
      ← Toml.member? ms "aggressive_sink_propagation" Toml.bool? s.aggressiveSinkPropagation
    sinkReport := ← Toml.member? ms "sink_report" Toml.bool? s.sinkReport
    logLevel := ← Toml.member? ms "log_level" LogFlags.ofToml? s.logLevel
    policies := ← Toml.member? ms "policies" Levels.ofToml? s.policies
    maxLength := ← Toml.member? ms "max_length" Toml.nat? s.maxLength
    outputDir := ← Toml.member? ms "output_dir" (fun v => v.text?.map some) s.outputDir }

/-- The names in a table that are none of those known, in increasing order. -/
def unknownKeys (known : List String) (ms : Toml.Members) : List String :=
  ((sortByKey ms).map (·.1)).filter fun name => !known.contains name

/-- What a document names that is no choice. -/
def warnings (ms : Toml.Members) : List String :=
  (unknownKeys knownKeys ms).map (fun name => s!"Unknown config option: '{name}'") ++
    match Table.find "log_level" ms with
    | some (.table _ levels) =>
      (unknownKeys knownLogKeys levels).map fun name =>
        s!"Unknown config option in [log_level]: '{name}'"
    | _ => []

section

variable {m : Type → Type} [Monad m] [FileAccess m]

/-- The choices in a file, and what it names that is no choice. -/
def load (path : String) : m (Except SettingsFault (Settings × List String)) := do
  match ← FileAccess.readText path with
  | .error fault => return .error (.unreadable path fault)
  | .ok content =>
    match Toml.read? content with
    | none => return .error (.malformed path)
    | some ms => match ofToml? ms with
      | none => return .error (.malformed path)
      | some s => return .ok (s, warnings ms)

/-- The first of some paths at which there is something. -/
def firstExisting : List String → m (Option String)
  | [] => return none
  | path :: rest => do
    if ← FileAccess.pathExists path then return some path else firstExisting rest

/-- The file that counts for a directory: the one in it, or in the closest directory around it. -/
def findFile (dir : String) : m (Option String) :=
  firstExisting ((Path.ancestors dir).map fun d => Path.join d fileName)

/-- The choices that count for a directory. A file that cannot be used counts as none. -/
def loadOrDefault (dir : String) : m Settings := do
  match ← findFile dir with
  | none => return {}
  | some path => match ← load path with
    | .ok (s, _) => return s
    | .error _ => return {}

end

end Settings

end ShadowTaint
