import ShadowTaint.Json.Basic
import ShadowTaint.Provenance.Node
import ShadowTaint.Text.Natural
/-!
# Exported histories

A history is written to a file as a tree: shared ancestors are listed once for every time that they
are reached, and the nodes are numbered from one on in the order of a walk that visits a node
before its parents and the parents from left to right.

## Main definitions

- `Provenance.Export`: nodes by number.
- `Provenance.walk`: the walk over a history, with `Export.ofNode`, the export that it leads to.
- `Export.toJson`, `Export.dot`: the two formats.
-/

namespace ShadowTaint.Provenance

/-- A node of an export. `flowsFrom` holds the numbers of its parents as texts. -/
structure ExportNode where
  operation : String
  value : String
  tainted : Bool
  flowsFrom : List String
deriving DecidableEq, Repr

/-- The numbers of a node's parents; texts that are no numbers do not count. -/
def ExportNode.parentIds (n : ExportNode) : List Nat := n.flowsFrom.filterMap Text.readNodeId?

/-- A node as a JSON object. -/
def ExportNode.toJson (n : ExportNode) : Json String :=
  .object [("operation", .string n.operation), ("value", .string n.value),
    ("tainted", .bool n.tainted), ("flows_from", .array (n.flowsFrom.map .string))]

/-- Numbers of nodes are below this bound. -/
def idBound : Nat := Nat.pow 2 32

/-- The formats of exports. -/
inductive ExportFormat where
  | json
  | dot
deriving DecidableEq, Repr

/-- The ending of a file's name in a format. -/
def ExportFormat.extension : ExportFormat → String
  | .json => "json"
  | .dot => "dot"

/-- The name of the file to which a history is exported. -/
def exportFileName (suffix : Option String) (format : ExportFormat) : String :=
  match suffix with
  | some suffix => s!"taint_{suffix}.{format.extension}"
  | none => s!"taint.{format.extension}"

/-- Nodes by number, in increasing order. -/
structure Export where
  nodes : List (Nat × ExportNode)
  sorted : nodes.Pairwise fun a b => a.1 < b.1
  bounded : ∀ n ∈ nodes, n.1 < idBound

/-- A description of a value without double quotes and backticks. -/
def withoutQuotes (value : String) : String :=
  String.ofList (value.toList.filter fun c => c != '"' && c != '\x60')

/-- What a history becomes in an export, before any of its parents has a number. -/
def ExportNode.ofNode (n : Node) : ExportNode :=
  { operation := n.label, value := withoutQuotes n.value, tainted := n.tainted, flowsFrom := [] }

/-- The node with one more parent. -/
def ExportNode.addParent (n : ExportNode) (id : Nat) : ExportNode :=
  { n with flowsFrom := n.flowsFrom ++ [toString id] }

/-- A history that waits for its number, and the number of the node that it flows into. -/
structure Waiting where
  node : Node
  consumer : Option Nat

/-- The parents of the node with a number, as they wait. -/
def waiting (consumer : Nat) (parents : List Node) : List Waiting :=
  parents.map fun p => ⟨p, some consumer⟩

theorem map_node_waiting (consumer : Nat) (parents : List Node) :
    (waiting consumer parents).map Waiting.node = parents := by
  rw [waiting, List.map_map]
  exact List.map_id _

/-- Adds a parent to the node with the number `consumer`, where the nodes are numbered from one
on. -/
def link (nodes : Array ExportNode) (consumer : Option Nat) (parent : Nat) : Array ExportNode :=
  match consumer with
  | none => nodes
  | some id => nodes.modify (id - 1) (·.addParent parent)

/-- Gives the next number to the first history that waits, makes it a parent of the node that it
flows into, and lets its own parents wait in front of all others. -/
def walk (nodes : Array ExportNode) : List Waiting → Array ExportNode
  | [] => nodes
  | w :: rest =>
    let id := nodes.size + 1
    walk ((link nodes w.consumer id).push (.ofNode w.node)) (waiting id w.node.parents ++ rest)
termination_by ws => Node.sizes (ws.map Waiting.node)
decreasing_by
  rw [List.map_append, Node.sizes_append, map_node_waiting, List.map_cons, Node.sizes, Node.size_eq]
  omega

/-- The members of a list with their numbers from `first` on. -/
def numbered {α : Type} (first : Nat) : List α → List (Nat × α)
  | [] => []
  | a :: rest => (first, a) :: numbered (first + 1) rest

theorem le_of_mem_numbered {α : Type} {l : List α} {first : Nat} {e : Nat × α}
    (h : e ∈ numbered first l) : first ≤ e.1 ∧ e.1 < first + l.length := by
  induction l generalizing first with
  | nil => simp [numbered] at h
  | cons a rest ih =>
    simp only [numbered, List.mem_cons] at h
    rcases h with rfl | h
    · simp
    · have := ih h
      simp only [List.length_cons]
      omega

theorem pairwise_numbered {α : Type} (l : List α) (first : Nat) :
    (numbered first l).Pairwise fun a b => a.1 < b.1 := by
  induction l generalizing first with
  | nil => exact .nil
  | cons a rest ih =>
    refine .cons (fun e he => ?_) (ih (first + 1))
    have := (le_of_mem_numbered he).1
    simp only
    omega

namespace Export

/-- The export without nodes. -/
def empty : Export := ⟨[], .nil, by simp⟩

instance : Inhabited Export := ⟨empty⟩

/-- The export of a list of nodes that are numbered from one on. -/
def ofList (nodes : List ExportNode) : Export where
  nodes := numbered 1 (nodes.take (idBound - 1))
  sorted := pairwise_numbered _ _
  bounded n hn := by
    have h := (le_of_mem_numbered hn).2
    have positive : 0 < idBound := by decide
    rw [List.length_take] at h
    omega

/-- The export of a history. -/
def ofNode (root : Node) : Export := ofList (walk #[] [⟨root, none⟩]).toList

/-- The node with a number. -/
def get? (e : Export) (id : Nat) : Option ExportNode :=
  (e.nodes.find? fun n => n.1 == id).map (·.2)

/-- The number of nodes. -/
def size (e : Export) : Nat := e.nodes.length

/-- The node with the number one. -/
def root? (e : Export) : Option ExportNode := e.get? 1

/-- Puts a node into a sorted list, in place of one with the same number. -/
def insertSorted (id : Nat) (n : ExportNode) : List (Nat × ExportNode) → List (Nat × ExportNode)
  | [] => [(id, n)]
  | (id', n') :: rest =>
    if id < id' then (id, n) :: (id', n') :: rest
    else if id = id' then (id, n) :: rest
    else (id', n') :: insertSorted id n rest

theorem mem_insertSorted {id : Nat} {n : ExportNode} {l : List (Nat × ExportNode)}
    {e : Nat × ExportNode} (h : e ∈ insertSorted id n l) : e = (id, n) ∨ e ∈ l := by
  induction l with
  | nil => simpa [insertSorted] using h
  | cons head rest ih =>
    obtain ⟨id', n'⟩ := head
    unfold insertSorted at h
    split at h
    · simpa using h
    · split at h
      · rcases List.mem_cons.1 h with h | h
        · exact .inl h
        · exact .inr (List.mem_cons_of_mem _ h)
      · rcases List.mem_cons.1 h with rfl | h
        · exact .inr (List.mem_cons_self ..)
        · rcases ih h with h | h
          · exact .inl h
          · exact .inr (List.mem_cons_of_mem _ h)

theorem pairwise_insertSorted (id : Nat) (n : ExportNode) {l : List (Nat × ExportNode)}
    (h : l.Pairwise fun a b => a.1 < b.1) :
    (insertSorted id n l).Pairwise fun a b => a.1 < b.1 := by
  induction l with
  | nil => simp [insertSorted]
  | cons head rest ih =>
    obtain ⟨id', n'⟩ := head
    obtain ⟨hhead, hrest⟩ := List.pairwise_cons.1 h
    unfold insertSorted
    split
    · rename_i hlt
      refine List.pairwise_cons.2 ⟨fun e he => ?_, h⟩
      rcases List.mem_cons.1 he with rfl | he
      · exact hlt
      · exact Nat.lt_trans hlt (hhead e he)
    · split
      · rename_i heq
        subst heq
        exact List.pairwise_cons.2 ⟨hhead, hrest⟩
      · refine List.pairwise_cons.2 ⟨fun e he => ?_, ih hrest⟩
        rcases mem_insertSorted he with rfl | he
        · simp only
          omega
        · exact hhead e he

/-- Puts a node into an export, in place of one with the same number. -/
def insert (e : Export) (id : Nat) (hid : id < idBound) (n : ExportNode) : Export where
  nodes := insertSorted id n e.nodes
  sorted := pairwise_insertSorted id n e.sorted
  bounded m hm := by
    rcases mem_insertSorted hm with rfl | hm
    · exact hid
    · exact e.bounded m hm

/-- An export as a JSON object, keyed by number. -/
def toJson (e : Export) : Json String :=
  .object (e.nodes.map fun n => (toString n.1, ExportNode.toJson n.2))

/-- The JSON text of an export. -/
def jsonText (e : Export) : String := e.toJson.pretty 4

/-- A text inside a quoted label of a graph. -/
def escapeLabel (s : String) : List Char :=
  s.toList.flatMap fun c =>
    if c = '\\' then ['\\', '\\']
    else if c = '"' then ['\\', '"']
    else if c = '\n' then ['\\', 'n']
    else [c]

/-- The statement of a graph that declares a node. -/
def nodeStatement (id : Nat) (n : ExportNode) : List Char :=
  s!"    n{id} [label=\"({id}) ".toList ++ escapeLabel n.operation ++ "\\n".toList ++
    escapeLabel n.value ++ ['"'] ++ (if n.tainted then ", color=red".toList else []) ++
    "];\n".toList

/-- Whether the node that a text names is tainted. -/
def isTaintedText (e : Export) (id : String) : Bool :=
  ((Text.readNodeId? id).bind e.get?).any (·.tainted)

/-- The statement of a graph that leads from a parent to a node. -/
def edgeStatement (e : Export) (id : Nat) (parent : String) : List Char :=
  s!"    n{parent} -> n{id}".toList ++
    (if e.isTaintedText parent then " [color=red]".toList else []) ++ ";\n".toList

/-- The graph of an export: all nodes, then all edges. -/
def dotChars (e : Export) : List Char :=
  "digraph Taint_Paths \x7b\n".toList ++ e.nodes.flatMap (fun n => nodeStatement n.1 n.2) ++
    e.nodes.flatMap (fun n => n.2.flowsFrom.flatMap (e.edgeStatement n.1)) ++ "\x7d\n".toList

/-- The text of the graph of an export. -/
def dot (e : Export) : String := String.ofList e.dotChars

/-- The text of an export in a format. -/
def render (e : Export) : ExportFormat → String
  | .json => e.jsonText
  | .dot => e.dot

end Export

end ShadowTaint.Provenance
