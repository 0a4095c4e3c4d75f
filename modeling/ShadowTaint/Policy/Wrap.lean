import ShadowTaint.Memory.Wrap
import ShadowTaint.Policy.Kind
/-!
# Wrapping

After an operation its operands and its result are wrapped: a literal gets a shadow under the
identity that was reserved for it, and a composite value, which is its own identity, only gives
that identity back. Containers of an imprecise kind then hold bare values, and containers of a
precise kind hold shadows.

## Main definitions

- `Heap.held?`, `Heap.setHeld`: the values that a container holds.
- `MemoryM.wrap`: wraps a value under the identity reserved last.
-/

namespace ShadowTaint

/-- The values that an object holds, if it is a container of the given sort. -/
def ObjectKind.held? : Container → ObjectKind → Option (List Value)
  | .array, .array elements => some elements
  | .map, .map entries => some (entries.map (·.2))
  | .set, .set members => some members
  | _, _ => none

/-- The container with the values that it holds replaced; the keys of a map stay. -/
def ObjectKind.withHeld (values : List Value) : ObjectKind → ObjectKind
  | .array _ => .array values
  | .map entries => .map (List.zipWith (fun e v => (e.1, v)) entries values)
  | .set _ => .set values
  | kind => kind

/-- The values that an object of the heap holds as a container of the given sort. -/
def Heap.held? (h : Heap) (c : Container) (id : ObjectId) : Option (List Value) :=
  (h.get id).kind.held? c

/-- Replaces the values that a container holds. -/
def Heap.setHeld (h : Heap) (id : ObjectId) (values : List Value) : Heap :=
  h.modify id fun o => { o with kind := o.kind.withHeld values }

namespace MemoryM

/-- A held value as a container of the given grain holds it. The imprecise one takes the shadow off
and drops the identity; the precise one gives a bare literal a shadow. -/
def hold : Grain → Value → MemoryM Value
  | .imprecise, v => do
    let raw ← unwrap v
    discard
    return raw
  | .precise, v => wrapFresh v

/-- What a policy does to a composite value that is wrapped: only containers are changed. -/
def settle (policy : Policy) (v : Value) : MemoryM Unit := do
  match policy with
  | .container c grain =>
    let m ← get
    match m.objectOf? v with
    | none => return
    | some id => match m.heap.held? c id with
      | none => return
      | some values =>
        let values ← values.mapM (hold grain)
        modifyHeap (·.setHeld id values)
  | _ => return

/-- Wraps a value under the identity reserved last. A value that is not a bare literal stays what
it is and gives the identity back. -/
def wrap (levels : Levels) (v : Value) : MemoryM Value := do
  match v with
  | .literal raw => shadow (← takeIdentity) raw
  | _ =>
    let m ← get
    settle (levels.policyFor m.heap (m.valueOf v)) v
    discard
    return v

end MemoryM

end ShadowTaint
