import ShadowTaint.Policy.Operands
import ShadowTaint.Propagation
import ShadowTaint.Tracker.Basic
/-!
# Hooks of field accesses and stores

## Main definitions

- `Tracker.getFieldPre`, `Tracker.getField`: before and after a property is read.
- `Tracker.putFieldPre`, `Tracker.putField`: before and after a property is stored. A store that is
  refused gives back the identities and handles of the hook.
-/

namespace ShadowTaint.Tracker

/-- The body of `getFieldPre`. -/
def getFieldPreBody (base offset : Value) : CheckedM (Value × Value) := do
  CheckedM.expectIdle "WGetFieldPre"
  let base ← MemoryM.unwrap base
  let offset ← MemoryM.unwrap offset
  return (base, offset)

/-- Before a property is read. Returns the base and the offset without shadows. -/
def getFieldPre (base offset : Value) : HookM (Value × Value) :=
  HookM.memoryHook "get_field_pre"
    (fun t => [("base", t.render base), ("offset", t.render offset)])
    fun _ => getFieldPreBody base offset

/-- The heap after a function without a name was read from a property: it takes the name of the
property. -/
def nameFunction (h : Heap) (v offset : Value) : Heap :=
  match v.object? with
  | none => h
  | some id => match (h.get id).kind with
    | .function f =>
      if f.name = "" then h.setKind id (.function { f with name := h.keyText offset }) else h
    | _ => h

/-- The body of `getField`. -/
def getFieldBody (base offset v : Value) (levels : Levels) : CheckedM Operands := do
  MemoryM.modifyHeap fun h => nameFunction h v offset
  let offset ← MemoryM.wrap levels offset
  let base ← MemoryM.wrap levels base
  let v ← MemoryM.wrap levels v
  CheckedM.checkPending "WGetField" 0
  let ops : Operands := ⟨base, offset, v⟩
  ((← get).policyOf levels base).getField levels ops
  return ops

/-- After a property was read. Returns the wrapped operands and the wrapped value. -/
def getField (base offset v : Value) : HookM Operands :=
  HookM.memoryHook "get_field"
    (fun t => [("base", t.render base), ("offset", t.render offset), ("value", t.render v)])
    (getFieldBody base offset v)

/-- The body of `putFieldPre`. -/
def putFieldPreBody (base offset v : Value) (levels : Levels) : CheckedM Operands := do
  CheckedM.expectIdle "WPutFieldPre"
  let base ← MemoryM.unwrap base
  let offset ← MemoryM.unwrap offset
  let policy := levels.policyFor (← get).heap base
  let v ← MemoryM.prepareStored policy v
  return ⟨base, offset, v⟩

/-- Before a property is stored. Returns the base and the offset without shadows, and the value
that is to be stored. -/
def putFieldPre (base offset v : Value) : HookM Operands :=
  HookM.memoryHook "put_field_pre"
    (fun t => [("base", t.render base), ("offset", t.render offset), ("value", t.render v)])
    (putFieldPreBody base offset v)

/-- The body of `putField`, without what a refused store gives back. -/
def putFieldAttempt (base offset v : Value) (levels : Levels) : CheckedM Operands := do
  let policy := levels.policyFor (← get).heap base
  let v ← MemoryM.restoreStored levels policy v
  let offset ← MemoryM.wrap levels offset
  let base ← MemoryM.wrap levels base
  CheckedM.checkPending "WPutField" 0
  let ops : Operands := ⟨base, offset, v⟩
  ((← get).policyOf levels base).putField levels ops
  return ops

/-- The body of `putField`. A refused store forgets the identities and handles that the hook handed
out and drops the reserved ones. -/
def putFieldBody (base offset v : Value) (levels : Levels) : CheckedM Operands := do
  let before := (← get).shadow.checkpoint
  tryCatch (putFieldAttempt base offset v levels) fun fault => do
    MemoryM.modifyShadow fun s => (s.rollback before).clearPending
    throw fault

/-- After a property was stored. Returns the wrapped operands and the wrapped value. -/
def putField (base offset v : Value) : HookM Operands :=
  HookM.memoryHook "put_field"
    (fun t => [("base", t.render base), ("offset", t.render offset), ("value", t.render v)])
    (putFieldBody base offset v)

end ShadowTaint.Tracker
