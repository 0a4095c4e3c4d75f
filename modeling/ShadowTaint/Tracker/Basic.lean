import ShadowTaint.Eval.Scope
import ShadowTaint.Files.Disk
import ShadowTaint.Ghost.Basic
import ShadowTaint.Memory.Taint
import ShadowTaint.Memory.Wrap
import ShadowTaint.Policy.Wrap
import ShadowTaint.Provenance.Export
import ShadowTaint.Settings.Basic
import ShadowTaint.Sink
/-!
# The tracker

Everything of one run: its settings, the memory, the sinks, the open scopes, what was reported and
logged, and the files that were written. A hook is an action on the tracker that may fail; what it
did before it failed stays done, and it ends in `Tracker.finish`, which exports and logs findings.

## Main definitions

- `Tracker`, `HookM`: the state of a run and the actions on it.
- `HookM.hook`: a body with what surrounds every hook.
-/

namespace ShadowTaint

/-- Everything of one run. -/
structure Tracker where
  settings : Settings
  memory : Memory
  sinks : Sinks := .builtIn
  ghosts : Ghosts
  scope : EvalScope
  /-- The sinks that were reported. -/
  reported : List String := []
  /-- The report about sinks. -/
  report : String := ""
  log : List LogEvent := []
  disk : Disk := {}

/-- Actions on the tracker that may fail. -/
abbrev HookM := ExceptT Fault (StateM Tracker)

namespace Tracker

/-- A tracker at the start of a run, with the ghost functions defined on the heap. -/
def start (settings : Settings) (heap : Heap) : Tracker :=
  let ghosts := Ghosts.standard settings.evalSink
  { settings, ghosts, memory := { heap := ghosts.install heap }, scope := { sink := settings.evalSink } }

/-- Logs an event. -/
def logging (t : Tracker) (e : LogEvent) : Tracker := { t with log := t.log ++ [e] }

/-- The description of a value in log events and messages. -/
def render (t : Tracker) (v : Value) : String :=
  t.memory.heap.describe (t.memory.valueOf v) t.settings.maxLength

/-- The descriptions of several values. -/
def renderAll (t : Tracker) (vs : List Value) : String :=
  "[" ++ ", ".intercalate (vs.map t.render) ++ "]"

/-- The tracker with the shadow state changed. -/
def modifyShadow (t : Tracker) (f : ShadowState → ShadowState) : Tracker :=
  { t with memory := { t.memory with shadow := f t.memory.shadow } }

/-- What tells the exports of a finding apart: the index of the argument of a sink, or else the
number of the path, where there are several. -/
def exportSuffix (f : Finding) (i : Nat) : Option String :=
  match f.kind with
  | .sinkReached _ indices => (indices[i]?).map toString
  | _ => if 1 < f.paths.length then some (toString i) else none

/-- Writes the export of one history and logs the outcome. -/
def writeExport (t : Tracker) (format : Provenance.ExportFormat) (suffix : Option String)
    (path : Provenance.Node) : Tracker :=
  let file := Path.join t.settings.outputPath (Provenance.exportFileName suffix format)
  match t.disk.write file ((Provenance.Export.ofNode path).render format) with
  | .ok disk =>
    { t with disk }.logging ⟨.info, some "wrote taint path", [("file", file)]⟩
  | .error e =>
    t.logging ⟨.warn, some "could not export taint path",
      [("error", s!"Failed to write taint path '{file}': {e.message}")]⟩

/-- The formats in which histories are exported. -/
def exportFormats (s : Settings) : List Provenance.ExportFormat :=
  (if s.taintPaths then [.dot] else []) ++ (if s.taintPathsJson then [.json] else [])

/-- Exports the histories of a finding and logs it. -/
def reportFinding (t : Tracker) (f : Finding) : Tracker :=
  let t := (exportFormats t.settings).foldl (fun t format =>
    f.paths.zipIdx.foldl (fun t (path, i) =>
      t.writeExport format (exportSuffix f i) path) t) t
  t.logging ⟨.warn, some f.kind.message, [("kind", f.kind.name)]⟩

/-- What every hook ends with: nothing is left behind for the next hook, a finding is reported, and
the outcome is logged as far as the settings ask for it. -/
def finish (t : Tracker) (hook : String) (fault : Option Fault) : Tracker :=
  let t := t.modifyShadow fun s => { s with context := .unset }
  let t := match fault.bind Fault.finding? with
    | some f => t.reportFinding f
    | none => t
  let t :=
    if t.settings.logLevel.debug then
      t.logging ⟨.trace, none, [("hook", hook), ("state", t.memory.shadow.describe)]⟩
    else t
  if t.settings.logLevel.explain then
    t.logging ⟨.debug, some "done",
      [("hook", hook), ("wrapped", toString t.memory.shadow.wraps.size)]⟩
  else t

end Tracker

namespace HookM

/-- Runs an action on the memory. -/
def onMemory {α : Type} (action : CheckedM α) : HookM α :=
  ExceptT.mk fun t =>
    let (result, memory) := action.run.run t.memory
    (result, { t with memory })

/-- Logs an event. -/
def logEvent (e : LogEvent) : HookM Unit := modify (·.logging e)

/-- Makes an object a sink, unless it is one already. -/
def registerSink (v : Value) (kind : SinkKind) (category : SinkCategory) : HookM Bool := do
  let t ← get
  match t.sinks.register? t.memory.heap v kind category with
  | none => return false
  | some sinks =>
    set { t with sinks }
    logEvent ⟨.info, some "registered sink",
      [("sink", Sinks.calleeName t.memory.heap v), ("kind", kind.name),
       ("category", category.name)]⟩
    return true

/-- A hook: its operands are logged where the settings ask for it, its body runs, and what every
hook ends with follows, whether the body succeeds or fails. -/
def hook {α : Type} (name : String) (operands : Tracker → List (String × String))
    (body : HookM α) : HookM α :=
  ExceptT.mk fun t =>
    let t :=
      if t.settings.logLevel.explain then
        t.logging ⟨.debug, none, ("hook", name) :: operands t⟩
      else t
    let (result, t) := body.run.run t
    let fault := match result with
      | .ok _ => none
      | .error fault => some fault
    (result, t.finish name fault)

/-- A hook whose body works on the memory only. -/
def memoryHook {α : Type} (name : String) (operands : Tracker → List (String × String))
    (body : Levels → CheckedM α) : HookM α :=
  hook name operands do onMemory (body (← get).settings.policies)

end HookM

/-- What a hook before an operation begins with: the identity of a condition is dropped, and then
none may be reserved. -/
def CheckedM.expectIdle (site : String) : CheckedM Unit := do
  if (← get).shadow.context = .conditional then
    checkPending site 1
    MemoryM.discard
  checkPending site 0

/-- The policy of a value in memory. -/
def Memory.policyOf (m : Memory) (levels : Levels) (v : Value) : Policy :=
  levels.policyFor m.heap (m.valueOf v)

end ShadowTaint
