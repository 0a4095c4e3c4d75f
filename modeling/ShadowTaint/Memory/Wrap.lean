import ShadowTaint.Memory.Basic
/-!
# Identities between hooks

The hook before an operation takes the shadows off the operands and reserves their identities; the
hook after it gives the identities back, last reserved first.

## Main definitions

- `MemoryM.unwrap`, `MemoryM.reserve`: reserve the identity of an operand.
- `MemoryM.wrapFresh`: a shadow with an identity of its own.
-/

namespace ShadowTaint.MemoryM

/-- Gives a literal a shadow, unless the current frame leaves literals alone. -/
def shadow (id : Identity) (raw : Literal) : MemoryM Value := do
  if (← get).shadow.frame.callType.skipsWrapping then return .literal raw
  return .shadow (← stepShadow (·.addHandle id raw)) id raw

/-- Takes the identity reserved last, or mints one. -/
def takeIdentity : MemoryM Identity := stepShadow (·.take)

/-- The identity of a value; one without a known shadow gets a fresh one. -/
def identityOf (v : Value) : MemoryM Identity := do
  match (← get).shadow.lookup? v with
  | some (id, _) => return id
  | none => stepShadow (·.mint)

/-- Gives a bare literal a shadow with a fresh identity; other values stay as they are. -/
def wrapFresh (v : Value) : MemoryM Value := do
  match v with
  | .literal raw => shadow (← stepShadow (·.mint)) raw
  | _ => return v

/-- Reserves the identity of a value that keeps its shadow. -/
def reserve (v : Value) : MemoryM Unit := do
  let id ← identityOf v
  modifyShadow (·.push id)

/-- Takes the shadow off a value and reserves its identity. -/
def unwrap (v : Value) : MemoryM Value := do
  let raw := (← get).valueOf v
  reserve v
  return raw

/-- Drops the identity reserved last. -/
def discard : MemoryM Unit := do
  let _ ← takeIdentity

end ShadowTaint.MemoryM
