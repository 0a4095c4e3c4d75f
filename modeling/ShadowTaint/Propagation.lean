import ShadowTaint.Propagation.Container
/-!
# The rules of a policy

Which rule applies to an operation, by the policy of the value that decides. Where a policy has no
rule of its own, the one of the configured policy of objects applies.
-/

namespace ShadowTaint

/-- A store into the global object is refused when the bit of the stored value is set. -/
def GlobalRule.putField (ops : Operands) : CheckedM Unit := do
  let m ← get
  if m.taintBit ops.value then
    throw (.finding
      { kind := .globalWrite (m.keyText ops.value), paths := [← MemoryM.history ops.value] })

namespace Policy

/-- The grain with which the rules of objects apply under a policy. -/
def objectGrain (policy : Policy) (levels : Levels) : Grain :=
  match policy with
  | .object grain => grain
  | _ => levels.objectGrain

/-- Whether a value counts as tainted. -/
def isTainted (policy : Policy) (levels : Levels) (m : Memory) (v : Value) : Bool :=
  match policy with
  | .container .. | .global => m.taintBit v
  | .object _ | .string | .lodash => (policy.objectGrain levels).isTainted m v

/-- The rule for a property that was read. -/
def getField (policy : Policy) (levels : Levels) (ops : Operands) : MemoryM Unit :=
  match policy with
  | .string => TextRule.getField levels ops
  | _ => ObjectRule.getField (policy.objectGrain levels) ops

/-- The rule for a property that was stored. -/
def putField (policy : Policy) (levels : Levels) (ops : Operands) : CheckedM Unit :=
  match policy with
  | .global => GlobalRule.putField ops
  | _ => ObjectRule.putField (policy.objectGrain levels) ops

/-- The rule for a binary operator. -/
def binary (policy : Policy) (levels : Levels) (op : String) (ops : Operands) : MemoryM Unit :=
  match policy with
  | .string => TextRule.binary levels op ops
  | _ => ObjectRule.binary (policy.objectGrain levels) op ops

/-- The rule for a unary operator. -/
def unary (policy : Policy) (levels : Levels) (operand result : Value) : MemoryM Unit :=
  ObjectRule.unary (policy.objectGrain levels) operand result

/-- The rule for a native function that returned. -/
def call (policy : Policy) (levels : Levels) (c : NativeCall) : MemoryM Unit :=
  match policy with
  | .string => TextRule.call levels c
  | .container kind grain => ContainerRule.call levels kind grain c
  | .global => ObjectRule.call none c
  | .object _ | .lodash => ObjectRule.call (some (policy.objectGrain levels)) c

end Policy

end ShadowTaint
