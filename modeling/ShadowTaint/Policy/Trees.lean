import ShadowTaint.Policy.Wrap
/-!
# Taking shadows off whole objects

External code must not see shadows, so before it runs the shadows are taken off everything that an
argument reaches through its properties. The identities found are kept as trees, and afterwards the
properties are wrapped under them again.

## Main definitions

- `MemoryM.unwrapObject`: takes the shadows off and returns the trees.
- `MemoryM.wrapTrees`: puts shadows back along the trees.
-/

namespace ShadowTaint

/-- The property keys along which shadows are taken off: the indices of an array, and the named
properties of other objects. -/
def Heap.ownKeys (h : Heap) (id : ObjectId) : List String :=
  match (h.get id).kind with
  | .array elements => (List.range elements.length).map toString
  | _ => (h.dataProperties id).map (·.1)

/-- Whether an object has a property under a key. -/
def Heap.hasOwnKey (h : Heap) (id : ObjectId) (key : String) : Bool :=
  let o := h.get id
  match o.kind with
  | .array elements => (Text.readIndex? key).any fun i => decide (i < elements.length)
  | _ => o.properties.contains key

namespace MemoryM

/-- Takes the shadow off the value of a property and returns its identity, with what was found below
it. -/
def stripProperty (id : ObjectId) (key : String) (children : List TaintTree) (child : Value) :
    MemoryM TaintTree := do
  let identity ← identityOf child
  let raw := (← get).valueOf child
  modifyHeap (·.setProperty id key raw)
  return { property := key, identity, children }

/-- Takes the shadows off the properties of an object and everything below it, except for objects
that were visited before. Returns the identities found and all visited objects. Every level down
visits another object, so the number of objects bounds `depth`. -/
def stripProperties : Nat → ObjectId → List ObjectId → MemoryM (List TaintTree × List ObjectId)
  | 0, _, visited => return ([], visited)
  | depth + 1, id, visited => do
    ((← get).heap.ownKeys id).foldlM (fun (trees, visited) key => do
      let m ← get
      let child := m.heap.getProperty id key
      match m.objectOf? child with
      | none => return (trees ++ [← stripProperty id key [] child], visited)
      | some childId =>
        if childId ∈ visited then return (trees, visited)
        let (children, visited) ← stripProperties depth childId (childId :: visited)
        return (trees ++ [← stripProperty id key children child], visited)) ([], visited)

/-- Takes the shadows off a value and everything it reaches through its properties. The identity of
the value itself is reserved, and those of the properties are returned. -/
def unwrapObject (v : Value) : MemoryM (Value × List TaintTree) := do
  let m ← get
  match m.objectOf? v with
  | none => return (← unwrap v, [])
  | some id =>
    let (trees, _) ← stripProperties m.heap.objects.size id [id]
    return (← unwrap v, trees)

mutual

/-- Wraps one property of an object under the identity in the tree, and what lies below it. -/
def wrapTree (levels : Levels) (id : ObjectId) : TaintTree → MemoryM Unit
  | ⟨key, identity, children⟩ => do
    if (← get).heap.hasOwnKey id key then
      modifyShadow (·.push identity)
      let wrapped ← wrap levels ((← get).heap.getProperty id key)
      match wrapped.object? with
      | some child => wrapTrees levels child children
      | none => pure ()
      modifyHeap (·.setProperty id key wrapped)

/-- Wraps the properties of an object under the identities in the trees. -/
def wrapTrees (levels : Levels) (id : ObjectId) : List TaintTree → MemoryM Unit
  | [] => return
  | tree :: rest => do
    wrapTree levels id tree
    wrapTrees levels id rest

end

end MemoryM

end ShadowTaint
