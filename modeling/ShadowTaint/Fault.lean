import ShadowTaint.Native.Error
import ShadowTaint.Provenance.Node
import ShadowTaint.Taint.Fault
/-!
# Faults

Why an operation of the tracker did not succeed, as causes. A *finding* is a vulnerability: a
tainted value reached an operation that must not see one. All other faults are violations of the
hook protocol, failed assertions of the analysed program, or failures of functions that the host
runs.

## Main definitions

- `Fault.message`: the one place where faults are worded.
-/

namespace ShadowTaint

/-- What a tainted value reached. -/
inductive FindingKind where
  /-- A call of a sink, with the indices of the tainted arguments. -/
  | sinkReached (sink : String) (taintedArguments : List Nat)
  /-- An evaluation of code, with a description of the code. -/
  | evalReached (code : String)
  /-- A store that reaches the prototype chain. -/
  | prototypePollution (property : String)
  /-- A store into the global object. -/
  | globalWrite (value : String)
  /-- A check that the analysed program asked for. -/
  | taintedArgument
deriving DecidableEq, Repr

namespace FindingKind

/-- The name under which a kind of finding is reported. -/
def name : FindingKind → String
  | .sinkReached .. => "sink_reached"
  | .evalReached _ => "eval_reached"
  | .prototypePollution _ => "prototype_pollution"
  | .globalWrite _ => "global_write"
  | .taintedArgument => "tainted_argument"

/-- What a finding says. -/
def message : FindingKind → String
  | .sinkReached sink indices =>
    s!"Sink {sink} reached with tainted arguments [" ++ ", ".intercalate (indices.map toString) ++ "]"
  | .evalReached code => s!"Sink function eval reached with tainted argument {code}"
  | .prototypePollution property =>
    s!"Detected modification of prototype with tainted value: {property}"
  | .globalWrite value => s!"Attempted modification of global with {value}"
  | .taintedArgument => "Tainted argument found"

end FindingKind

/-- A vulnerability, with the histories of the tainted values. -/
structure Finding where
  kind : FindingKind
  paths : List Provenance.Node

/-- How the hook protocol was violated. -/
inductive Violation where
  /-- The number of reserved identities is not what a hook needs. -/
  | pending (site : String) (expected found : Nat)
  /-- No frame was saved under the call site. -/
  | unknownCallSite (site : Int)
  /-- A ghost function was declared twice. -/
  | ghostDeclaredTwice
  /-- An evaluation scope was closed that had not been opened. -/
  | scopeNotOpen
deriving DecidableEq, Repr

/-- What a violation says. -/
def Violation.message : Violation → String
  | .pending site expected found => s!"{site}: IDS must hold {expected} entries, found {found}"
  | .unknownCallSite site => s!"Could not find stack matching ID: {site}"
  | .ghostDeclaredTwice => "Registering an already declared ghost function is not allowed"
  | .scopeNotOpen => "Mismatch in evalctx handling"

/-- Which assertion of the analysed program failed. -/
inductive FailedAssertion where
  | argumentCount (ghost : String) (expected found : Nat)
  | numericBounds (ghost : String)
  | notWrapped (value : String)
  | wrapped (value : String)
  | valueUntainted
  | valueTainted
  | noPropertyTainted
  | propertyUntainted
  | propertyTainted
  | sinkNotFunction
  | untaintedIndices (indices : List Nat)
  | taintedIndices (indices : List Nat)
deriving DecidableEq, Repr

/-- A list of indices without spaces. -/
def indexList (indices : List Nat) : String :=
  "[" ++ ",".intercalate (indices.map toString) ++ "]"

/-- What a failed assertion says. -/
def FailedAssertion.message : FailedAssertion → String
  | .argumentCount ghost expected found =>
    s!"{ghost} expects {expected} argument(s), got {found}"
  | .numericBounds ghost => s!"{ghost} expects numeric bounds"
  | .notWrapped value => s!"{value} is not wrapped"
  | .wrapped value => s!"{value} is wrapped"
  | .valueUntainted => "Argument expected to be tainted"
  | .valueTainted => "Argument expected to be untainted"
  | .noPropertyTainted => "Argument expected to have at least one tainted property"
  | .propertyUntainted => "Property expected to be tainted"
  | .propertyTainted => "Property expected to be untainted"
  | .sinkNotFunction => "Sink must be a function"
  | .untaintedIndices indices => "Untainted indices: " ++ indexList indices
  | .taintedIndices indices => "Tainted indices: " ++ indexList indices

/-- Why an operation of the tracker did not succeed. -/
inductive Fault where
  | violation (v : Violation)
  | finding (f : Finding)
  | assertion (a : FailedAssertion)
  /-- The run ended because an assertion held. -/
  | completed
  | chars (c : CharFault)
  /-- A function that the host ran failed. -/
  | native (e : NativeError)

namespace Fault

/-- What a fault says. -/
def message : Fault → String
  | .violation v => "Assertion failure: " ++ v.message
  | .finding f => f.kind.message
  | .assertion a => a.message
  | .completed => "Completed execution"
  | .chars c => c.message
  | .native e => e.message

/-- The finding that a fault is. -/
def finding? : Fault → Option Finding
  | .finding f => some f
  | _ => none

end Fault

end ShadowTaint
