import ShadowTaint.Propagation
import ShadowTaint.Tracker.Basic
/-!
# Hooks of literals, assignments and operators

## Main definitions

- `Tracker.literal`, `Tracker.write`: a literal is evaluated, a variable is assigned.
- `Tracker.binaryPre`, `Tracker.binary`, `Tracker.unaryPre`, `Tracker.unary`: before and after an
  operator.
- `Tracker.conditional`, `Tracker.endExpression`: a condition is tested, an expression ends.
-/

namespace ShadowTaint.Tracker

/-- The body of `literal`. -/
def literalBody (v : Value) (levels : Levels) : CheckedM Value := do
  CheckedM.expectIdle "WLiteral"
  let wrapped ← MemoryM.wrap levels v
  CheckedM.checkPending "WLiteral" 0
  return wrapped

/-- A literal is evaluated. Returns the value to go on with. -/
def literal (v : Value) : HookM Value :=
  HookM.memoryHook "literal" (fun t => [("value", t.render v)]) (literalBody v)

/-- Taints a value that is written while a scope is open. Its history stays as it is. -/
def taintWritten (v : Value) : MemoryM Unit := do
  let path ← MemoryM.history v
  MemoryM.store v { bit := true, chars := (← get).charMap? v true, path }

/-- The body of `write`. After a condition the value is wrapped under the identity of the
condition. -/
def writeBody (v : Value) (inScope : Bool) (levels : Levels) : CheckedM Value := do
  let conditional := (← get).shadow.context = .conditional
  CheckedM.checkPending "WWrite" (if conditional then 1 else 0)
  let v ← if conditional then MemoryM.wrap levels v else pure v
  CheckedM.checkPending "WWrite" 0
  MemoryM.modifyShadow fun s => { s with context := .unset }
  if inScope then taintWritten v
  return v

/-- A value is assigned. Returns the value to store. -/
def write (target v : Value) : HookM Value :=
  HookM.hook "write" (fun t => [("lhs", t.render target), ("value", t.render v)]) do
    let t ← get
    HookM.onMemory (writeBody v t.scope.isActive t.settings.policies)

/-- The body of `binaryPre`. -/
def binaryPreBody (left right : Value) : CheckedM (Value × Value) := do
  CheckedM.expectIdle "WBinaryPre"
  let left ← MemoryM.unwrap left
  let right ← MemoryM.unwrap right
  return (left, right)

/-- Before a binary operator. Returns the operands without shadows. -/
def binaryPre (op : String) (left right : Value) : HookM (Value × Value) :=
  HookM.memoryHook "binary_pre"
    (fun t => [("op", op), ("left", t.render left), ("right", t.render right)])
    fun _ => binaryPreBody left right

/-- The body of `binary`. -/
def binaryBody (op : String) (left right result : Value) (levels : Levels) :
    CheckedM (Value × Value × Value) := do
  let right ← MemoryM.wrap levels right
  let left ← MemoryM.wrap levels left
  let result ← MemoryM.wrap levels result
  CheckedM.checkPending "WBinary" 0
  ((← get).policyOf levels result).binary levels op ⟨left, right, result⟩
  return (left, right, result)

/-- After a binary operator. Returns the wrapped operands and the wrapped result. -/
def binary (op : String) (left right result : Value) : HookM (Value × Value × Value) :=
  HookM.memoryHook "binary"
    (fun t => [("op", op), ("left", t.render left), ("right", t.render right),
      ("result", t.render result)])
    (binaryBody op left right result)

/-- The body of `unaryPre`. -/
def unaryPreBody (operand : Value) : CheckedM Value := do
  CheckedM.expectIdle "WUnaryPre"
  MemoryM.unwrap operand

/-- Before a unary operator. Returns the operand without its shadow. -/
def unaryPre (op : String) (operand : Value) : HookM Value :=
  HookM.memoryHook "unary_pre" (fun t => [("op", op), ("operand", t.render operand)])
    fun _ => unaryPreBody operand

/-- The body of `unary`. -/
def unaryBody (operand result : Value) (levels : Levels) : CheckedM (Value × Value) := do
  let operand ← MemoryM.wrap levels operand
  let result ← MemoryM.wrap levels result
  CheckedM.checkPending "WUnary" 0
  ((← get).policyOf levels operand).unary levels operand result
  return (operand, result)

/-- After a unary operator. Returns the wrapped operand and the wrapped result. -/
def unary (op : String) (operand result : Value) : HookM (Value × Value) :=
  HookM.memoryHook "unary"
    (fun t => [("op", op), ("operand", t.render operand), ("result", t.render result)])
    (unaryBody operand result)

/-- The body of `conditional`. The identity of the condition stays reserved. -/
def conditionalBody (v : Value) : CheckedM Value := do
  CheckedM.expectIdle "WConditional"
  let raw ← MemoryM.unwrap v
  CheckedM.checkPending "WConditional" 1
  return raw

/-- A condition is tested. Returns the value to branch on. -/
def conditional (v : Value) : HookM Value := do
  let raw ← HookM.memoryHook "conditional" (fun t => [("value", t.render v)])
    fun _ => conditionalBody v
  modify (·.modifyShadow fun s => { s with context := .conditional })
  return raw

/-- An expression ends. -/
def endExpression : HookM Unit :=
  HookM.memoryHook "end_expression" (fun _ => []) fun _ => CheckedM.expectIdle "WEndExpr"

end ShadowTaint.Tracker
