/-!
# Provenance nodes

Every change of a value's taint adds a node to the value's history. A node names the operation,
holds a short description of the value and lists the histories that went into it. Nodes are told
apart by the number they were born with: a history that occurs twice among the parents of a join is
listed once.

## Main definitions

- `Provenance.Node.leaf`: an untainted root.
- `Provenance.Node.join`: an operation on earlier histories.
- `Provenance.Node.size`: how many nodes a history has as a tree.
-/

namespace ShadowTaint.Provenance

/-- The operation that taints a value. -/
def taintedLabel : String := "Tainted"

/-- The operation that clears a value, and the label of every root. -/
def untaintedLabel : String := "Untainted"

/-- How many characters of a value's description a node keeps. -/
def snapshotLimit : Nat := 20

/-- A step in the history of a value. -/
structure Node where
  /-- The number the node was born with. -/
  uid : Nat
  /-- The operation. -/
  label : String
  /-- The histories of the operands. -/
  parents : List Node
  /-- The description of the value at that time. -/
  value : String
  /-- Whether taint went into the value. -/
  tainted : Bool

instance : Inhabited Node := ⟨⟨0, untaintedLabel, [], "", false⟩⟩

namespace Node

/-- The start of a description. -/
def snapshot (value : String) : String := String.ofList (value.toList.take snapshotLimit)

/-- An untainted root with no history. -/
def leaf (uid : Nat) (value : String) : Node := ⟨uid, untaintedLabel, [], snapshot value, false⟩

/-- The nodes without those that were born as an earlier one in the list or as one of `seen`. -/
def distinctFrom (seen : List Nat) : List Node → List Node
  | [] => []
  | n :: rest =>
    if n.uid ∈ seen then distinctFrom seen rest else n :: distinctFrom (n.uid :: seen) rest

/-- The nodes in order of their first occurrence, each once. -/
def distinct (nodes : List Node) : List Node := distinctFrom [] nodes

/-- How many numbers a join uses up: its own, and that of the root it may have to add. -/
def joinCost : Nat := 2

/-- An operation on earlier histories. Without any it hangs off a new root, which is born with the
next number, and is untainted whatever its label. -/
def join (uid : Nat) (label : String) (parents : List Node) (value : String) : Node :=
  if parents.isEmpty then ⟨uid, label, [leaf (uid + 1) value], snapshot value, false⟩
  else
    let parents := distinct parents
    ⟨uid, label, parents, snapshot value, label == taintedLabel || parents.any (·.tainted)⟩

/-- Whether the node has a history. -/
def hasParents (n : Node) : Bool := !n.parents.isEmpty

mutual

/-- How many nodes a history has if every ancestor counts once for every way that leads to it. -/
def size : Node → Nat
  | ⟨_, _, parents, _, _⟩ => sizes parents + 1

/-- How many nodes several histories have. -/
def sizes : List Node → Nat
  | [] => 0
  | n :: rest => size n + sizes rest

end

theorem size_eq (n : Node) : n.size = sizes n.parents + 1 := by
  cases n
  rw [size]

theorem sizes_append (ns ns' : List Node) : sizes (ns ++ ns') = sizes ns + sizes ns' := by
  induction ns with
  | nil => rw [List.nil_append, sizes, Nat.zero_add]
  | cons n rest ih => rw [List.cons_append, sizes, sizes, ih, Nat.add_assoc]

end Node

end ShadowTaint.Provenance
