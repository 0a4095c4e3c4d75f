import ShadowTaint.Heap.Text
import ShadowTaint.Shadow.State
/-!
# Memory

The heap of the analysed program together with the shadow state. Operations that cannot fail are
actions in `MemoryM`; those that can are in `CheckedM`, and what they did before they failed stays
done.
-/

namespace ShadowTaint

/-- The heap and what is recorded beside it. -/
structure Memory where
  heap : Heap
  shadow : ShadowState := {}

/-- Actions on the memory. -/
abbrev MemoryM := StateM Memory

/-- Actions on the memory that may fail. -/
abbrev CheckedM := ExceptT Fault MemoryM

namespace Memory

/-- The value behind a shadow. -/
def valueOf (m : Memory) (v : Value) : Value := m.shadow.valueOf v

/-- The object that a value is. -/
def objectOf? (m : Memory) (v : Value) : Option ObjectId := (m.valueOf v).object?

/-- The string behind a value. -/
def stringOf? (m : Memory) (v : Value) : Option String := (m.valueOf v).string?

/-- The key that a value is coerced to. -/
def keyText (m : Memory) (v : Value) : String := m.heap.keyText (m.valueOf v)

/-- The short description of a value that provenance nodes keep. -/
def snapshot (m : Memory) (v : Value) : String :=
  m.heap.describe (m.valueOf v) Provenance.snapshotLimit

/-- The name of a function; functions without one are anonymous. -/
def functionName (m : Memory) (f : Value) : String :=
  match m.heap.function? (m.valueOf f) with
  | some function => if function.name = "" then "anonymous" else function.name
  | none => "anonymous"

/-- Whether a value is a function implemented by the runtime or the host. -/
def isNative (m : Memory) (f : Value) : Bool :=
  (m.heap.function? (m.valueOf f)).any Function.isNative

/-- How calls of a function are treated specially. -/
def builtin? (m : Memory) (f : Value) : Option Builtin :=
  (m.heap.function? (m.valueOf f)).bind (·.builtin)

end Memory

namespace MemoryM

/-- Changes the heap. -/
def modifyHeap (f : Heap → Heap) : MemoryM Unit := modify fun m => { m with heap := f m.heap }

/-- Changes the shadow state. -/
def modifyShadow (f : ShadowState → ShadowState) : MemoryM Unit :=
  modify fun m => { m with shadow := f m.shadow }

/-- Runs a step of the shadow state. -/
def stepShadow {α : Type} (f : ShadowState → α × ShadowState) : MemoryM α := fun m =>
  let (a, shadow) := f m.shadow
  (a, { m with shadow })

end MemoryM

/-- Requires a number of reserved identities at a hook. -/
def CheckedM.checkPending (site : String) (expected : Nat) : CheckedM Unit := do
  match (← get).shadow.checkPending site expected with
  | .ok () => pure ()
  | .error v => throw (.violation v)

end ShadowTaint
