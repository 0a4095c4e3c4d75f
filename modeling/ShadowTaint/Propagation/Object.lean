import ShadowTaint.Memory.Taint
import ShadowTaint.Policy.Kind
/-!
# How taint spreads through objects

The rules that apply where no kind of value has its own. With the imprecise grain a value counts as
tainted as soon as anything inside it is, and a tainted store taints the object that is stored into;
with the precise grain only the bit of the value counts.

## Main definitions

- `ObjectRule.getField`, `putField`, `binary`, `unary`: the rules of the operations.
- `ObjectRule.call`: the rule of native functions about which nothing else is known.
- `ObjectRule.checkPollution`: refuses tainted stores that reach the prototype chain.
-/

namespace ShadowTaint

/-- A field access, a store or a binary operation. For an operator, `base` and `offset` are the left
and the right operand. -/
structure Operands where
  base : Value
  offset : Value
  value : Value

/-- A call of a native function that has returned. -/
structure NativeCall where
  f : Value
  base : Value
  args : List Value
  result : Value

/-- Whether a value counts as tainted: with everything inside it, or by its bit alone. -/
def Grain.isTainted (grain : Grain) (m : Memory) (v : Value) : Bool :=
  match grain with
  | .imprecise => m.isTainted v
  | .precise => m.taintBit v

namespace ObjectRule

/-- The names under which an object reaches a prototype. -/
def prototypeNames : List String := ["prototype", "__proto__"]

/-- Whether a store under a key reaches the prototype chain. -/
def reachesPrototype (m : Memory) (base : Value) (key : String) : Bool :=
  prototypeNames.contains key || m.objectOf? base == some Heap.objectPrototype

/-- Refuses tainted stores that reach the prototype chain. -/
def checkPollution (ops : Operands) : CheckedM Unit := do
  let m ← get
  let key := m.keyText ops.offset
  if !(m.valueOf ops.offset).isNullish && m.isTainted ops.value &&
      reachesPrototype m ops.base key then
    throw (.finding { kind := .prototypePollution key, paths := [← MemoryM.history ops.value] })

/-- A property that is read is tainted when the object is, or when the property itself was. -/
def getField (grain : Grain) (ops : Operands) : MemoryM Unit := do
  let m ← get
  let base ← MemoryM.entry ops.base
  match m.stored? ops.value with
  | some known =>
    let tainted := grain.isTainted m ops.base || grain.isTainted m ops.value
    MemoryM.record ops.value tainted known.chars "object.GetField" [base.path, known.path]
  | none =>
    MemoryM.record ops.value (grain.isTainted m ops.base) (m.charMap? ops.value base.bit)
      "object.GetField" [base.path]

/-- An object becomes tainted by a tainted store, if it is tracked as a whole. -/
def putField (grain : Grain) (ops : Operands) : CheckedM Unit := do
  checkPollution ops
  match grain with
  | .precise => return
  | .imprecise =>
    let m ← get
    let base ← MemoryM.history ops.base
    let written ← MemoryM.history ops.value
    let tainted := m.isTainted ops.base || m.isTainted ops.value
    let path ← MemoryM.node "object.putField" [base, written] ops.value
    MemoryM.store ops.base { bit := tainted, chars := m.charMap? ops.base tainted, path }

/-- The result of a binary operator is tainted when one of the operands is. -/
def binary (grain : Grain) (op : String) (ops : Operands) : MemoryM Unit := do
  let m ← get
  let left ← MemoryM.history ops.base
  let right ← MemoryM.history ops.offset
  MemoryM.recordWhole ops.value (grain.isTainted m ops.base || grain.isTainted m ops.offset) op
    [left, right]

/-- The result of a unary operator is tainted when the operand is. -/
def unary (grain : Grain) (operand result : Value) : MemoryM Unit := do
  let m ← get
  let source ← MemoryM.entry operand
  let path ← MemoryM.node "object.Unary" [source.path] operand
  MemoryM.store result
    { bit := grain.isTainted m operand, chars := m.charMap? result source.bit, path }

/-- The result of a native function is tainted as a whole when its receiver is, or else when the
bit of an argument is set. Where nothing is tainted, nothing is stored. Without `receiver` the
receiver does not count. -/
def call (receiver : Option Grain) (c : NativeCall) : MemoryM Unit := do
  let m ← get
  let label := "imprecise:" ++ m.functionName c.f
  if receiver.any fun grain => grain.isTainted m c.base || m.allProps c.base then
    MemoryM.recordWhole c.result true label [← MemoryM.history c.base]
  else
    let entries ← c.args.mapM MemoryM.entry
    if entries.any (·.bit) then
      MemoryM.recordWhole c.result true label (entries.map (·.path))

end ObjectRule

end ShadowTaint
