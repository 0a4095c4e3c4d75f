import ShadowTaint.Json.Reader
import ShadowTaint.Provenance.Export
/-!
# Reading an exported history

An export is read back from its JSON text. The text has to be an object whose members are nodes; a
node is an object, or an array of its four fields in order. Members of a node that are no fields
are passed over, a field that is missing or repeated is refused. Only when all members are nodes
are their keys read as numbers, in the order of the keys.

## Main definitions

- `Export.read`: the export that a text stands for.
- `ExportFault`: why a text is no export.
-/

namespace ShadowTaint.Provenance

/-- Why a text is no export. -/
inductive ExportFault where
  /-- It is no JSON, or has not the shape of an export. -/
  | malformed
  /-- A key is no number of a node. -/
  | badNodeId (key : String)
deriving DecidableEq, Repr

/-- What an export fault says. -/
def ExportFault.message : ExportFault → String
  | .malformed => "Invalid taint path export"
  | .badNodeId key => s!"Invalid node id '{key}' in taint path export"

/-- A JSON value as it was read. -/
abbrev Document := Json (Option String)

namespace Document

/-- The text that a value is. -/
def text? : Document → Option String
  | .string s => s
  | _ => none

/-- The truth value that a value is. -/
def bool? : Document → Option Bool
  | .bool b => some b
  | _ => none

/-- The texts that an array holds, if it holds nothing else. -/
def texts? : Document → Option (List String)
  | .array items => items.mapM text?
  | _ => none

/-- The value of the only member with a name. -/
def field? (name : String) (members : List (String × Document)) : Option Document :=
  match members.filter fun m => m.1 == name with
  | [(_, v)] => some v
  | _ => none

/-- The members of an object, if all its keys are texts. -/
def members? : Document → Option (List (String × Document))
  | .object members => members.mapM fun m => m.1.map fun key => (key, m.2)
  | _ => none

end Document

/-- The node that four fields make up. -/
def ExportNode.ofFields? (operation value tainted flowsFrom : Document) : Option ExportNode := do
  return {
    operation := ← operation.text?
    value := ← value.text?
    tainted := ← tainted.bool?
    flowsFrom := ← flowsFrom.texts? }

/-- The node that a JSON value stands for. -/
def ExportNode.ofDocument? (d : Document) : Option ExportNode :=
  match d with
  | .array [operation, value, tainted, flowsFrom] => ofFields? operation value tainted flowsFrom
  | .object _ => do
    let members ← d.members?
    ofFields? (← Document.field? "operation" members) (← Document.field? "value" members)
      (← Document.field? "tainted" members) (← Document.field? "flows_from" members)
  | _ => none

namespace Export

/-- Puts a node under its key into a list sorted by key, in place of one with the same key. -/
def insertKey (key : String) (n : ExportNode) :
    List (String × ExportNode) → List (String × ExportNode)
  | [] => [(key, n)]
  | (key', n') :: rest =>
    if key = key' then (key, n) :: rest
    else if key < key' then (key, n) :: (key', n') :: rest
    else (key', n') :: insertKey key n rest

/-- The nodes that a JSON value holds, sorted by key; of nodes with one key the last one counts. -/
def keyed? (d : Document) : Option (List (String × ExportNode)) := do
  let members ← d.members?
  let nodes ← members.mapM fun m => (ExportNode.ofDocument? m.2).map fun n => (m.1, n)
  return nodes.foldl (fun sorted m => insertKey m.1 m.2 sorted) []

/-- Puts nodes under the numbers that their keys stand for into an export. -/
def insertAll (e : Export) : List (String × ExportNode) → Except ExportFault Export
  | [] => .ok e
  | (key, n) :: rest => match Text.readNodeId? key with
    | none => .error (.badNodeId key)
    | some id =>
      if h : id < idBound then insertAll (e.insert id h n) rest else .error (.badNodeId key)

/-- The export that a text stands for. -/
def read (s : String) : Except ExportFault Export :=
  match (Json.read? s).bind keyed? with
  | none => .error .malformed
  | some nodes => insertAll .empty nodes

end Export

end ShadowTaint.Provenance
