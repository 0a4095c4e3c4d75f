import ShadowTaint.CommandLine.Help
import ShadowTaint.CommandLine.Terminal
import ShadowTaint.Provenance.Reader
import ShadowTaint.Provenance.Triage
import ShadowTaint.Settings.File
/-!
# Running a command

Every command reads files and yields an exit code and two texts, one for the output and one for
messages. A command that fails has no output: its message says what failed, and what it was caused
by.

## Main definitions

- `CommandLine.run`: the program on its arguments.
-/

namespace ShadowTaint

/-- What a run of the program yields. -/
structure Outcome where
  code : Nat := 0
  stdout : String := ""
  stderr : String := ""
deriving DecidableEq, Repr

/-- How the output is shown. -/
structure Screen where
  /-- Whether words are set off. -/
  colors : Bool
  /-- Whether the surroundings ask for plain output. -/
  plain : Bool := false

namespace CommandLine

open Terminal

/-- A command that failed, with what it was caused by. -/
structure Failure where
  message : String
  causes : List String

/-- The message about a failure. Two causes or more are numbered. -/
def Failure.text (f : Failure) : String :=
  let causes := match f.causes with
    | [] => ""
    | [cause] => s!"\n\nCaused by:\n    {cause}"
    | causes => "\n\nCaused by:" ++ String.join (causes.zipIdx.map fun (p : String × Nat) =>
        s!"\n    {p.2}: {p.1}")
  s!"Error: {f.message}{causes}\n"

/-- A failed command. -/
def failed (f : Failure) : Outcome := { code := 1, stderr := f.text }

/-! ## Settings -/

/-- Settings, the file that they come from, and the warnings about it. -/
structure ResolvedSettings where
  file : Option String
  settings : Settings
  warnings : List String

namespace ResolvedSettings

/-- Resolved settings as a JSON object. -/
def toJson (r : ResolvedSettings) : Json String :=
  .object [
    ("file", match r.file with
      | some path => .string path
      | none => .null),
    ("config", r.settings.toJson),
    ("policies", .array (r.settings.resolved.map fun (kind, precision, policy) =>
      .object [("kind", .string kind), ("precision", .string precision.name),
        ("policy", .string policy.name)])),
    ("warnings", .array (r.warnings.map .string))]

/-- Resolved settings as lines to be read by people. -/
def text (r : ResolvedSettings) (colors : Bool) : String :=
  let s := r.settings
  let heading := fun (name value : String) => paint colors [.bold] name ++ value
  let entry := fun (name value : String) => s!"  {paint colors [.cyan] name}: {value}"
  let switch := fun (name : String) (on : Bool) =>
    entry name (if on then paint colors [.green] "on" else paint colors [.red] "off")
  let file := r.file.getD (paint colors [.dimmed] "none (defaults)")
  HelpPage.lines (
    ["",
     heading "Config file:" (" " ++ file),
     "",
     switch "eval_sink" s.evalSink,
     switch "assert_passed" s.assertPassed,
     switch "taint_paths" s.taintPaths,
     switch "taint_paths_json" s.taintPathsJson,
     switch "aggressive_sink_propagation" s.aggressiveSinkPropagation,
     switch "sink_report" s.sinkReport,
     switch "log_level.explain" s.logLevel.explain,
     switch "log_level.debug" s.logLevel.debug,
     entry "max_length" (toString s.maxLength),
     entry "output_dir" s.outputPath,
     "",
     heading "Policies:" ""] ++
    s.resolved.map (fun (kind, precision, policy) =>
      "  " ++ paint colors [.cyan] (padRight 8 kind) ++ " " ++ padRight 10 precision.name ++ " " ++
        policy.name) ++
    [""])

end ResolvedSettings

/-! ## Triage -/

/-- Numbers between commas. -/
def joinIds (ids : List Nat) : String :=
  if ids.isEmpty then "none" else ", ".intercalate (ids.map toString)

/-- The summary of an export as lines to be read by people. -/
def triageText (t : Provenance.Triage) (colors : Bool) : String :=
  let heading := fun (name value : String) => paint colors [.bold] name ++ value
  let sink := match t.sink with
    | some .t1 => paint colors [.bold, .red] "T1"
    | some .t2 => paint colors [.bold, .red] "T2"
    | none => paint colors [.dimmed] "none"
  HelpPage.lines (
    ["",
     heading "Root:" s!" {t.rootOperation}",
     heading "Sink class:" s!" {sink}",
     heading "Graph:" s!" {t.nodeCount} nodes, longest path {t.longestPath}",
     heading "Leaves:" s!" {joinIds t.leafIds}",
     heading "Controllable leaves:" s!" {joinIds t.controllableLeafIds}",
     "",
     heading "Sanitizer-like operations:" ""] ++
    Provenance.SanitizerClass.all.map (fun c =>
      let summary := t.sanitizers c
      s!"  {paint colors [.cyan] (padRight 14 c.name)} {summary.count} " ++
        paint colors [.dimmed] (", ".intercalate summary.operations)) ++
    [""])

/-- The summary of an export with what it was made from, as a JSON object. -/
def triageJson (t : Provenance.Triage) (path directory : String) : Json String :=
  .object [
    ("version", .string "1.0"),
    ("metadata", .object [
      ("nodetaint_version", .string programVersion),
      ("working_directory", .string directory),
      ("export_path", .string path)]),
    ("triage", t.toJson)]

/-! ## Commands -/

section

variable {m : Type → Type} [Monad m] [FileAccess m]

/-- The settings that count for a directory, changed by tokens. -/
def resolve (dir : String) (tokens : List String) : m (Except Failure ResolvedSettings) := do
  match ← Settings.findFile dir with
  | none => return .ok ⟨none, (Settings.applyTokens {} tokens).1, []⟩
  | some path => match ← Settings.load path with
    | .ok (s, warnings) => return .ok ⟨some path, (s.applyTokens tokens).1, warnings⟩
    | .error fault =>
      let causes := match fault with
        | .unreadable _ fault => [fault.message]
        | .malformed _ => []
      return .error ⟨fault.message, causes⟩

/-- Shows the settings that count for a directory. -/
def runConfig (screen : Screen) (tokens : List String) (dir : Option String) (format : String) :
    m Outcome := do
  let dir ← match dir with
    | some dir => pure dir
    | none => FileAccess.currentDirectory
  match ← resolve dir tokens with
  | .error f => return failed f
  | .ok r =>
    let mark := paint screen.colors [.bold, .yellow] "warning:"
    return {
      stdout := if format = "json" then r.toJson.pretty 2 ++ "\n" else r.text screen.colors
      stderr := HelpPage.lines (r.warnings.map fun w => s!"{mark} {w}") }

/-- The export in a file. -/
def readExport (path : String) : m (Except Failure Provenance.Export) := do
  match ← FileAccess.readText path with
  | .error fault => return .error ⟨s!"Failed to read taint export '{path}'", [fault.message]⟩
  | .ok text => match Provenance.Export.read text with
    | .error fault => return .error ⟨s!"Invalid taint export '{path}'", [fault.message]⟩
    | .ok e => return .ok e

/-- Shows the summary of an export that was read from a file. -/
def showTriage (screen : Screen) (e : Provenance.Export) (path format : String) (plain : Bool) :
    m Outcome := do
  let t := Provenance.Triage.ofExport e
  if format = "json" then
    return { stdout := (triageJson t path (← FileAccess.currentDirectory)).pretty 2 ++ "\n" }
  else return { stdout := triageText t (screen.colors && !screen.plain && !plain) }

/-- Summarises the export in a file. -/
def runTriage (screen : Screen) (path format : String) (plain : Bool) : m Outcome := do
  match ← readExport path with
  | .error f => return failed f
  | .ok e => showTriage screen e path format plain

/-- Shows the graph of an export, or writes it to a file. -/
def showDot (screen : Screen) (e : Provenance.Export) (output : Option String) : m Outcome := do
  match output with
  | none => return { stdout := e.dot }
  | some target => match ← FileAccess.writeText target e.dot with
    | .error fault => return failed ⟨s!"Failed to write '{target}'", [fault.message]⟩
    | .ok () =>
      return { stderr := paint screen.colors [.bold, .green] "wrote" ++ s!" {target}\n" }

/-- Draws the export in a file as a graph. -/
def runDot (screen : Screen) (path : String) (output : Option String) : m Outcome := do
  match ← readExport path with
  | .error f => return failed f
  | .ok e => showDot screen e output

/-- Runs a command. -/
def runCommand (screen : Screen) : Command → m Outcome
  | .config tokens dir format => runConfig screen tokens dir format
  | .triage path format plain => runTriage screen path format plain
  | .dot path output => runDot screen path output

/-- The file to which the log goes; where the path does not end in a name, a file with a name of its
own in the directory of the path. -/
def logTarget (path : String) : String :=
  Path.join ((Path.parent? path).getD ".") ((Path.fileName? path).getD s!"{programName}.log")

/-- The program on its arguments. The file for the log is made before the command runs. -/
def run (screen : Screen) (args : List String) : m Outcome := do
  match Request.ofArguments args with
  | .invalid => return { code := 2, stderr := (HelpPage.program false).text }
  | .version => return { stdout := s!"{programName} {programVersion}\n" }
  | .help page => return { stdout := page.text }
  | .run command none => runCommand screen command
  | .run command (some logFile) => match ← FileAccess.createFile (logTarget logFile) with
    | .ok () => runCommand screen command
    | .error fault => return { code := 101, stderr := s!"{logFile}: {fault.message}\n" }

end

end CommandLine

end ShadowTaint
