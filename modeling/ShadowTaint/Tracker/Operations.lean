import ShadowTaint.Native.Invoke
import ShadowTaint.Tracker.Calls
import ShadowTaint.Tracker.Fields
import ShadowTaint.Tracker.Operators
/-!
# Whole operations

An operation of the analysed program as a host runs it: the hook before it, the operation itself on
the operands that the hook returned, and the hook after it. A fault ends the operation where it
arises.

## Main definitions

- `Tracker.readField`, `Tracker.storeField`, `Tracker.operate`, `Tracker.operateUnary`,
  `Tracker.invoke`: the operations.
- `Tracker.callGhost`: a call of a ghost function by value.
-/

namespace ShadowTaint.Tracker

/-- A property is read. The host may give the value instead of the heap; a base that is no object
has no properties. -/
def readField (base offset : Value) (given : Option Value) : HookM Operands := do
  let (base, offset) ← getFieldPre base offset
  let h := (← get).memory.heap
  let v := match given, base.object? with
    | some v, _ => v
    | none, some id => h.getProperty id (h.keyText offset)
    | none, none => .undefined
  getField base offset v

/-- A property is stored, if the base is an object. -/
def storeField (base offset v : Value) : HookM Operands := do
  let ops ← putFieldPre base offset v
  match ops.base.object? with
  | some id => HookM.onMemory <| MemoryM.modifyHeap fun h =>
      h.setProperty id (h.keyText ops.offset) ops.value
  | none => pure ()
  putField ops.base ops.offset ops.value

/-- A binary operator is applied. Where the host gives no result, the operands are concatenated. -/
def operate (op : String) (left right : Value) (given : Option Value) :
    HookM (Value × Value × Value) := do
  let (left, right) ← binaryPre op left right
  let h := (← get).memory.heap
  binary op left right (given.getD (.string (h.keyText left ++ h.keyText right)))

/-- A unary operator is applied. -/
def operateUnary (op : String) (operand result : Value) : HookM (Value × Value) := do
  let operand ← unaryPre op operand
  unary op operand result

/-- Runs a native function of the host. -/
def runNative (f this : Value) (args : List Value) : HookM Value := do
  let t ← get
  match t.memory.heap.invoke f this args with
  | .error e => throw (.native e)
  | .ok (result, heap) =>
    set { t with memory := { t.memory with heap } }
    return result

/-- The result of a call that the hook before it has prepared. Where the host gives none, the
function runs as a native one. -/
def perform (prepared : Call) (given : Option Value) : HookM Value :=
  match given with
  | some v => return v
  | none => runNative prepared.f prepared.base prepared.args

/-- A function is called. Returns the wrapped operands and the wrapped result. -/
def invoke (c : Call) (given : Option Value) : HookM (Call × Value) := do
  let prepared ← callPre c
  callPost prepared (← perform prepared given)

/-- A ghost function is called. Returns its arguments. -/
def callGhost (f : Value) (args : List Value) : HookM (List Value) := do
  let (c, _) ← invoke { f, base := .undefined, args, site := 0 } (some .undefined)
  return c.args

end ShadowTaint.Tracker
