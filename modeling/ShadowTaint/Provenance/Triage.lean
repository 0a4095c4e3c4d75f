import ShadowTaint.Provenance.Export
import ShadowTaint.Text.Case
import ShadowTaint.Text.Search
/-!
# Triage of exported histories

A summary of an export for people who look for exploits: what kind of sink the root is, which
leaves an attacker controls, and which operations on the way may have made the value harmless.

## Main definitions

- `Provenance.operationMatches`: whether an operation's name matches keywords.
- `Provenance.Triage`: the summary, with `Triage.ofExport`.
-/

namespace ShadowTaint.Provenance

/-- Whether a name contains a keyword, or is part of one, without regard to case. -/
def operationMatches (keywords : List String) (operation : String) : Bool :=
  keywords.any (fun k => Text.occursFolded k.toList operation.toList) ||
    let lowered := (Text.toLower operation).toList
    !lowered.isEmpty && keywords.any fun k => Text.occursIn lowered (Text.toLower k).toList

/-- What an attacker gains at a sink. -/
inductive SinkClass where
  /-- Running commands. -/
  | t1
  /-- Running code. -/
  | t2
deriving DecidableEq, Repr

namespace SinkClass

/-- The name of a class. -/
def name : SinkClass → String
  | .t1 => "t1"
  | .t2 => "t2"

/-- The names of sinks that run commands. -/
def commandSinks : List String := ["exec"]

/-- The names of sinks that run code. -/
def codeSinks : List String := ["eval", "Function", "execSync"]

/-- The class of a sink by its name. -/
def classify? (operation : String) : Option SinkClass :=
  if operationMatches codeSinks operation then some .t2
  else if operationMatches commandSinks operation then some .t1
  else none

end SinkClass

/-- The operations that may make a value harmless. -/
inductive SanitizerClass where
  | implicit
  | explicit
  | objectAccess
deriving DecidableEq, Repr

namespace SanitizerClass

/-- The name of a class. -/
def name : SanitizerClass → String
  | .implicit => "implicit"
  | .explicit => "explicit"
  | .objectAccess => "object_access"

/-- The keywords by which a class is recognised. -/
def keywords : SanitizerClass → List String
  | .implicit => ["stringify", "replace", "substr", "indexOf"]
  | .explicit =>
    ["htmlencode", "urlencode", "encode", "escape", "sanitize", "queryString", "paramString",
     "bodyString", "headerString"]
  | .objectAccess => ["getField", "putField"]

/-- All classes. -/
def all : List SanitizerClass := [.implicit, .explicit, .objectAccess]

end SanitizerClass

/-- The operations of one class: how many nodes there are, and the names without repetition in
increasing order. -/
structure SanitizerSummary where
  count : Nat
  operations : List String
deriving DecidableEq, Repr

/-- Puts a text into an increasing list, unless it is there. -/
def insertText (s : String) : List String → List String
  | [] => [s]
  | t :: rest => if s < t then s :: t :: rest else if s = t then t :: rest else t :: insertText s rest

/-- The nodes of an export whose operation is of a class. -/
def SanitizerSummary.of (e : Export) (c : SanitizerClass) : SanitizerSummary :=
  let hits := (e.nodes.map (·.2.operation)).filter (operationMatches c.keywords)
  ⟨hits.length, hits.foldl (fun l s => insertText s l) []⟩

/-- What occurs in the operation that uses a leaf which an attacker controls. -/
def controlMarker : String := "set_taint"

namespace Export

/-- The numbers of the nodes that list a number among their parents, once for every time. -/
def consumers (e : Export) (id : Nat) : List Nat :=
  e.nodes.flatMap fun n => (n.2.parentIds.filter (· == id)).map fun _ => n.1

/-- The numbers of the nodes without parents. -/
def leafIds (e : Export) : List Nat := (e.nodes.filter (·.2.flowsFrom.isEmpty)).map (·.1)

/-- Whether an attacker controls a leaf: it has one consumer, which taints it. -/
def isControllable (e : Export) (leaf : Nat) : Bool :=
  match e.consumers leaf with
  | [consumer] => (e.get? consumer).any fun n =>
      Text.occursIn controlMarker.toList n.operation.toList
  | _ => false

/-- How many nodes the longest chain from every node up has, for the nodes of a list whose numbers
increase. Parents with a smaller number do not count. -/
def depths : List (Nat × ExportNode) → List (Nat × Nat)
  | [] => []
  | (id, n) :: rest =>
    let above := depths rest
    let longest := n.parentIds.foldl (fun longest parent =>
      if id < parent then max longest ((above.lookup parent).getD 0) else longest) 0
    (id, longest + 1) :: above

/-- How many nodes the longest chain from the root up has. -/
def longestPath (e : Export) : Nat := ((depths e.nodes).lookup 1).getD 0

end Export

/-- The summary of an export. -/
structure Triage where
  rootOperation : String
  sink : Option SinkClass
  nodeCount : Nat
  longestPath : Nat
  leafIds : List Nat
  controllableLeafIds : List Nat
  implicit : SanitizerSummary
  explicit : SanitizerSummary
  objectAccess : SanitizerSummary
deriving DecidableEq, Repr

namespace Triage

/-- The summary of an export. -/
def ofExport (e : Export) : Triage :=
  let rootOperation := (e.root?.map (·.operation)).getD ""
  { rootOperation
    sink := SinkClass.classify? rootOperation
    nodeCount := e.size
    longestPath := e.longestPath
    leafIds := e.leafIds
    controllableLeafIds := e.leafIds.filter e.isControllable
    implicit := .of e .implicit
    explicit := .of e .explicit
    objectAccess := .of e .objectAccess }

/-- The operations of one class. -/
def sanitizers (t : Triage) : SanitizerClass → SanitizerSummary
  | .implicit => t.implicit
  | .explicit => t.explicit
  | .objectAccess => t.objectAccess

/-- A summary as a JSON object. -/
def toJson (t : Triage) : Json String :=
  let numbers := fun (ids : List Nat) => Json.array (ids.map .nat)
  let summary := fun (s : SanitizerSummary) =>
    Json.object [("count", .nat s.count), ("operations", .array (s.operations.map .string))]
  .object ([
    ("root_operation", .string t.rootOperation),
    ("sink", match t.sink with
      | some c => .string c.name
      | none => .null),
    ("count_nodes", .nat t.nodeCount),
    ("longest_path", .nat t.longestPath),
    ("leaf_ids", numbers t.leafIds),
    ("controllable_leaf_ids", numbers t.controllableLeafIds)] ++
    SanitizerClass.all.map fun c => (c.name, summary (t.sanitizers c)))

end Triage

end ShadowTaint.Provenance
