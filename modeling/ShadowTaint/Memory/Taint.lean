import ShadowTaint.Memory.Basic
/-!
# Taint of values in memory

Queries read the stored entry of a value, or the members of a composite value where nothing is
stored about characters. Updates replace the stored entry and extend the history of the value.

## Main definitions

- `Memory.isTainted`, `Memory.taintAny`, `Memory.taintAll`: whole-value queries.
- `MemoryM.setTaint`, `CheckedM.setPropertyTaint`, `MemoryM.relabel`: updates.
- `CheckedM.check`: a tainted value is a finding.
-/

namespace ShadowTaint

namespace Memory

/-- The stored taint of a value. -/
def stored? (m : Memory) (v : Value) : Option TaintEntry := m.shadow.stored? v

/-- The stored taint bit of a value. -/
def taintBit (m : Memory) (v : Value) : Bool := (m.stored? v).any (·.bit)

/-- A map in which all characters of a string have one taint; other values have no map. -/
def charMap? (m : Memory) (v : Value) (tainted : Bool) : Option CharMap :=
  (m.stringOf? v).map fun s => CharMap.uniform s.length tainted

/-- The values that a composite value exposes to taint queries: the elements of an array, the named
properties of anything else. -/
def members (m : Memory) (v : Value) : List Value :=
  match m.objectOf? v with
  | none => []
  | some id => match (m.heap.get id).kind with
    | .array elements => elements
    | _ => (m.heap.dataProperties id).map (·.2)

/-- Whether anything inside the value is tainted. -/
def anyProps (m : Memory) (v : Value) : Bool :=
  match (m.stored? v).bind (·.chars) with
  | some map => map.any
  | none => (m.members v).any m.taintBit

/-- Whether everything inside the value is tainted, and there is something inside. -/
def allProps (m : Memory) (v : Value) : Bool :=
  match (m.stored? v).bind (·.chars) with
  | some map => map.all
  | none => !(m.members v).isEmpty && (m.members v).all m.taintBit

/-- Whether the value or anything inside it is tainted. -/
def isTainted (m : Memory) (v : Value) : Bool := m.taintBit v || m.anyProps v

/-- Whether the value as a whole is tainted: its bit, or everything inside it. -/
def taintAll (m : Memory) (v : Value) : Bool :=
  m.taintBit v || m.heap.hasOwnProperties (m.valueOf v) && m.allProps v

/-- Whether any part of the value is tainted: its bit, or anything inside it. -/
def taintAny (m : Memory) (v : Value) : Bool :=
  m.taintBit v || m.heap.hasOwnProperties (m.valueOf v) && m.anyProps v

/-- The stored taint of a value, or that of a value which was never tainted. -/
def entryOf (m : Memory) (v : Value) : TaintEntry :=
  match m.stored? v with
  | some e => e
  | none =>
    { bit := false
      chars := m.charMap? v false
      path := .leaf m.shadow.nextNode (m.snapshot v) }

/-- The taint under one key of a string's map. -/
def propertyTaint (m : Memory) (v : Value) (key : String) : Except CharFault Bool :=
  match (m.entryOf v).chars with
  | none => .error (.noMapFor (m.snapshot v))
  | some map => match map.get? key with
    | none => .error (.unknownKey key)
    | some tainted => .ok tainted

/-- The taint of every character of a value's text: a string has a map, and the bit of any other
value stands for its whole text. -/
def charBits (m : Memory) (v : Value) : List Bool :=
  match m.stringOf? v with
  | some s => (m.entryOf v).charBits s.length
  | none => List.replicate (m.keyText v).length (m.entryOf v).bit

end Memory

namespace MemoryM

/-- Uses up numbers of nodes. -/
def useNodes (count : Nat) : MemoryM Unit :=
  modifyShadow fun s => { s with nextNode := s.nextNode + count }

/-- The taint of a value. One that was never stored has a root of its own as its history. -/
def entry (v : Value) : MemoryM TaintEntry := do
  let e := (← get).entryOf v
  useNodes 1
  return e

/-- The history of a value. -/
def history (v : Value) : MemoryM Provenance.Node := do return (← entry v).path

/-- A new node that describes a value. -/
def node (label : String) (parents : List Provenance.Node) (v : Value) :
    MemoryM Provenance.Node := do
  let m ← get
  useNodes Provenance.Node.joinCost
  return .join m.shadow.nextNode label parents (m.snapshot v)

/-- Stores the taint of a value. -/
def store (v : Value) (e : TaintEntry) : MemoryM Unit := modifyShadow (·.store v e)

/-- Stores a taint for `v` whose history is a new node that describes `v`. -/
def record (v : Value) (bit : Bool) (chars : Option CharMap) (label : String)
    (parents : List Provenance.Node) : MemoryM Unit := do
  store v { bit, chars, path := ← node label parents v }

/-- Stores for `v` that it is tainted or untainted as a whole. -/
def recordWhole (v : Value) (tainted : Bool) (label : String)
    (parents : List Provenance.Node) : MemoryM Unit := do
  record v tainted ((← get).charMap? v tainted) label parents

/-- The label of an operation that taints or clears. -/
def taintLabel (tainted : Bool) : String :=
  if tainted then Provenance.taintedLabel else Provenance.untaintedLabel

/-- Taints or clears the whole value. -/
def setTaint (v : Value) (tainted : Bool) : MemoryM Unit := do
  recordWhole v tainted (taintLabel tainted) [← history v]

/-- Adds a node to the history of a value and leaves its taint alone. -/
def relabel (v : Value) (label : String) : MemoryM Unit := do
  let e ← entry v
  store v { e with path := ← node label [e.path] v }

end MemoryM

namespace CheckedM

/-- Taints or clears one character of a string, or its length. -/
def setPropertyTaint (v : Value) (key : String) (tainted : Bool) : CheckedM Unit := do
  let m ← get
  if (m.stringOf? v).isNone then throw (.chars (.notString (m.keyText v)))
  let old ← MemoryM.entry v
  let map := (old.chars.or (m.charMap? v false)).getD (.uniform 0 false)
  match map.set? key tainted with
  | none => throw (.chars (.unknownKey key))
  | some map => MemoryM.record v map.all (some map) (MemoryM.taintLabel tainted) [old.path]

/-- Refuses a value of which any part is tainted. -/
def check (v : Value) : CheckedM Unit := do
  if (← get).taintAny v then
    throw (.finding { kind := .taintedArgument, paths := [← MemoryM.history v] })

end CheckedM

end ShadowTaint
