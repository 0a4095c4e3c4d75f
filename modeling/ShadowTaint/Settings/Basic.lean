import ShadowTaint.Log
import ShadowTaint.Policy.Kind
import ShadowTaint.Text.Natural
import ShadowTaint.Text.Search
/-!
# Settings of a run

What can be chosen about a run, and the `key=value` tokens that change the choices. A token with an
unknown key or a value that cannot be read is skipped and logged.

## Main definitions

- `Settings`: the choices, with their defaults.
- `Settings.applyTokens`: the choices after some tokens.
-/

namespace ShadowTaint

/-- Which details of a run are logged. -/
structure LogFlags where
  /-- The operands and the result of every hook. -/
  explain : Bool := false
  /-- A dump of the shadow state after every hook. -/
  debug : Bool := false
deriving DecidableEq, Repr

/-- The least important level that these details need. -/
def LogFlags.level (flags : LogFlags) : LogLevel :=
  if flags.debug then .trace else if flags.explain then .debug else .info

/-- What can be chosen about a run. -/
structure Settings where
  /-- An assertion that holds ends the run. -/
  assertPassed : Bool := false
  /-- Tainted code that is evaluated is a finding; else it runs in a scope of its own. -/
  evalSink : Bool := true
  /-- The histories of findings are exported as graphs. -/
  taintPaths : Bool := true
  /-- The histories of findings are exported as JSON. -/
  taintPathsJson : Bool := false
  /-- Internal calls pass the nature of a sink on as well. -/
  aggressiveSinkPropagation : Bool := true
  /-- Calls of sinks are only reported. -/
  sinkReport : Bool := false
  logLevel : LogFlags := {}
  policies : Levels := {}
  /-- How many characters of a value are shown in log events and messages. -/
  maxLength : Nat := 50
  /-- Where exports are written. -/
  outputDir : Option String := none

namespace Settings

/-- Where exports are written; the current directory, where nothing was chosen. -/
def outputPath (s : Settings) : String := s.outputDir.getD "."

/-- Whether a value turns on what is off by default. -/
def isTrue (value : String) : Bool := value == "true" || value == "t"

/-- Whether a value turns off what is on by default. -/
def isFalse (value : String) : Bool := value == "false" || value == "f"

/-- The texts between commas. -/
def commaSeparated (value : String) : List String :=
  (Text.splitAtChar ',' value.toList).map String.ofList

/-- The texts before and after the first occurrence of a character. -/
def splitOnceAt? (c : Char) (s : String) : Option (String × String) :=
  (Text.splitOnce c s.toList).map fun p => (String.ofList p.1, String.ofList p.2)

/-- A pair of a class of values and its precision. -/
def policyPair? (pair : String) : Option (String × Precision) :=
  (splitOnceAt? ':' pair).bind fun (kind, level) => (Precision.parse? level).map fun p => (kind, p)

/-- Applies pairs of classes and precisions; others are logged. -/
def applyPolicies (levels : Levels) : List String → Levels × List LogEvent
  | [] => (levels, [])
  | pair :: rest =>
    if pair.isEmpty then applyPolicies levels rest
    else match policyPair? pair with
      | some (kind, precision) => applyPolicies (levels.set kind precision) rest
      | none =>
        let (levels, log) := applyPolicies levels rest
        (levels, ⟨.debug, "ignoring malformed policy entry", [("pair", pair)]⟩ :: log)

/-- The settings after one token, and what was logged about it. -/
def applyToken (s : Settings) (token : String) : Settings × List LogEvent :=
  let ignoring := fun (reason : String) =>
    [({ level := .debug, message := s!"ignoring {reason} config token",
        fields := [("token", token)] } : LogEvent)]
  match splitOnceAt? '=' token with
  | none => (s, ignoring "malformed")
  | some (key, value) => match key with
    | "assert_passed" => ({ s with assertPassed := isTrue value }, [])
    | "eval_sink" => ({ s with evalSink := !isFalse value }, [])
    | "taint_paths" => ({ s with taintPaths := !isFalse value }, [])
    | "taint_paths_json" => ({ s with taintPathsJson := isTrue value }, [])
    | "aggressive_sink_propagation" =>
      ({ s with aggressiveSinkPropagation := !isFalse value }, [])
    | "sink_report" => ({ s with sinkReport := isTrue value }, [])
    | "log_level" =>
      let levels := commaSeparated value
      ({ s with
          logLevel := { explain := levels.contains "info", debug := levels.contains "debug" } },
        [])
    | "policies" =>
      let (policies, log) := applyPolicies s.policies (commaSeparated value)
      ({ s with policies }, log)
    | "max_length" => match Text.readIndex? value with
      | some n => ({ s with maxLength := n }, [])
      | none => (s, ignoring "malformed")
    | "output_dir" => ({ s with outputDir := some value }, [])
    | _ => (s, ignoring "unknown")

/-- The settings after some tokens, applied one after the other, and what was logged. -/
def applyTokens (s : Settings) : List String → Settings × List LogEvent
  | [] => (s, [])
  | token :: rest =>
    let (s, log) := s.applyToken token
    let (s, more) := s.applyTokens rest
    (s, log ++ more)

/-- The classes of values whose resolved policies are listed. -/
def listedKinds : List String := ["array", "string", "global", "lodash", "map", "set", "object"]

end Settings

end ShadowTaint
