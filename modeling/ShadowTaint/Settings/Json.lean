import ShadowTaint.Json.Basic
import ShadowTaint.Settings.Basic
/-!
# Settings as JSON

The choices of a run as a JSON object, one member per choice, and the policies that the choices
lead to.

## Main definitions

- `Settings.toJson`: the choices.
- `Settings.resolved`: precision and policy of the classes of values that are listed.
-/

namespace ShadowTaint.Settings

/-- Puts an entry into a list sorted by key. -/
def insertByKey {α : Type} (e : String × α) : List (String × α) → List (String × α)
  | [] => [e]
  | e' :: rest => if e.1 < e'.1 then e :: e' :: rest else e' :: insertByKey e rest

/-- A list of entries, sorted by key. -/
def sortByKey {α : Type} (entries : List (String × α)) : List (String × α) :=
  entries.foldr insertByKey []

/-- The choices as a JSON object. -/
def toJson (s : Settings) : Json String :=
  .object [
    ("assert_passed", .bool s.assertPassed),
    ("eval_sink", .bool s.evalSink),
    ("taint_paths", .bool s.taintPaths),
    ("taint_paths_json", .bool s.taintPathsJson),
    ("aggressive_sink_propagation", .bool s.aggressiveSinkPropagation),
    ("sink_report", .bool s.sinkReport),
    ("log_level",
      .object [("explain", .bool s.logLevel.explain), ("debug", .bool s.logLevel.debug)]),
    ("policies",
      .object ((sortByKey s.policies.byName.entries).map fun e => (e.1, .string e.2.name))),
    ("max_length", .nat s.maxLength),
    ("output_dir", match s.outputDir with
      | some dir => .string dir
      | none => .null)]

/-- Precision and policy of each class of values that is listed. -/
def resolved (s : Settings) : List (String × Precision × Policy) :=
  listedKinds.map fun name =>
    let kind := ValueKind.ofName name
    (name, s.policies.precision kind, s.policies.resolve kind)

end ShadowTaint.Settings
