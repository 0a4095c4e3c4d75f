import ShadowTaint.Table
import ShadowTaint.Import
import ShadowTaint.Text.Natural
import ShadowTaint.Value
import ShadowTaint.Native.Basic
/-!
# The heap

Every composite value is an object of the heap, numbered in the order of allocation. An object has
a kind, which may hold values (elements of an array, entries of a map, members of a set), and named
properties in the order in which they were first stored. The elements of an array are reached
through the keys that spell an index.

## Main statements

- `Heap.get_modify_self`, `Heap.get_modify_ne`: changing one object leaves the others alone.
-/

namespace ShadowTaint

/-- A function: its name, what runs when it is native, and whether calls treat it specially. -/
structure Function where
  name : String
  native : Option Native := none
  builtin : Option Builtin := none
deriving DecidableEq, Repr

/-- Whether the function is implemented by the runtime or the host. -/
def Function.isNative (f : Function) : Bool := f.native.isSome

/-- The kinds of objects. -/
inductive ObjectKind where
  | plain (constructorName : String)
  | array (elements : List Value)
  | map (entries : List (Value × Value))
  | set (members : List Value)
  | function (f : Function)
  | global
  | objectPrototype
  | json

/-- An object of the heap. -/
structure HeapObject where
  kind : ObjectKind
  properties : Table String Value := .empty
  importTag : Option ImportTag := none

instance : Inhabited HeapObject := ⟨{ kind := .plain "Object" }⟩

/-- All objects that the analysed program can reach. -/
structure Heap where
  objects : Array HeapObject

namespace Heap

/-- The global object. -/
def global : ObjectId := 0

/-- The object at the end of every prototype chain. -/
def objectPrototype : ObjectId := 1

/-- The object that holds the JSON functions. -/
def json : ObjectId := 2

/-- The object with a number; numbers that were never handed out stand for an empty object. -/
def get (h : Heap) (id : ObjectId) : HeapObject := (h.objects[id]?).getD default

/-- The heap with one object changed. -/
def modify (h : Heap) (id : ObjectId) (f : HeapObject → HeapObject) : Heap :=
  ⟨h.objects.modify id f⟩

theorem get_modify_self {h : Heap} {id : ObjectId} (hid : id < h.objects.size)
    (f : HeapObject → HeapObject) : (h.modify id f).get id = f (h.get id) := by
  simp [modify, get, hid, Array.getElem_modify]

theorem get_modify_ne (h : Heap) {id other : ObjectId} (hne : other ≠ id)
    (f : HeapObject → HeapObject) : (h.modify id f).get other = h.get other := by
  simp [modify, get, Array.getElem?_modify, Ne.symm hne]

/-- Adds an object and returns its number. -/
def alloc (h : Heap) (o : HeapObject) : ObjectId × Heap := (h.objects.size, ⟨h.objects.push o⟩)

/-- Adds an object of a kind and returns it as a value. -/
def allocKind (h : Heap) (kind : ObjectKind) : Value × Heap :=
  let (id, h) := h.alloc { kind }
  (.object id, h)

/-- Adds a plain object. -/
def allocPlain (h : Heap) (constructorName : String) : Value × Heap :=
  h.allocKind (.plain constructorName)

/-- Adds an array. -/
def allocArray (h : Heap) (elements : List Value) : Value × Heap := h.allocKind (.array elements)

/-- Adds a function of the analysed program. -/
def allocScript (h : Heap) (name : String) : Value × Heap := h.allocKind (.function { name })

/-- Adds a native function. -/
def allocNative (h : Heap) (name : String) (native : Native) : Value × Heap :=
  h.allocKind (.function { name, native := some native })

/-- The function that a value is. -/
def function? (h : Heap) (v : Value) : Option Function :=
  match v.object? with
  | none => none
  | some id => match (h.get id).kind with
    | .function f => some f
    | _ => none

/-- Whether a value can be called. -/
def isFunction (h : Heap) (v : Value) : Bool := (h.function? v).isSome

/-- The elements of an array. -/
def elements? (h : Heap) (v : Value) : Option (List Value) :=
  match v.object? with
  | none => none
  | some id => match (h.get id).kind with
    | .array elements => some elements
    | _ => none

/-- The heap with the kind of an object replaced. -/
def setKind (h : Heap) (id : ObjectId) (kind : ObjectKind) : Heap :=
  h.modify id fun o => { o with kind }

/-- Replaces the elements of an array; other values are left alone. -/
def setElements (h : Heap) (v : Value) (elements : List Value) : Heap :=
  match v.object? with
  | none => h
  | some id => match (h.get id).kind with
    | .array _ => h.setKind id (.array elements)
    | _ => h

/-- The tag of an object that came out of loading a module. -/
def importTag? (h : Heap) (v : Value) : Option ImportTag :=
  v.object?.bind fun id => (h.get id).importTag

/-- Tags an object with the module it came from. -/
def setImportTag (h : Heap) (id : ObjectId) (tag : ImportTag) : Heap :=
  h.modify id fun o => { o with importTag := some tag }

/-- What an object answers to a property key. -/
def HeapObject.property (o : HeapObject) (key : String) : Value :=
  match o.kind with
  | .array elements =>
    if key = "length" then .number (Decimal.ofNat elements.length)
    else match Text.readIndex? key with
      | some i => elements.getD i .undefined
      | none => (o.properties.get? key).getD .undefined
  | _ => (o.properties.get? key).getD .undefined

/-- The list with a value at a position, filled up with undefined where it was too short. -/
def setAt (elements : List Value) (i : Nat) (v : Value) : List Value :=
  if i < elements.length then elements.set i v
  else elements ++ List.replicate (i - elements.length) .undefined ++ [v]

/-- The object with a value stored under a property key. -/
def HeapObject.storeProperty (o : HeapObject) (key : String) (v : Value) : HeapObject :=
  match o.kind with
  | .array elements => match Text.readIndex? key with
    | some i => { o with kind := .array (setAt elements i v) }
    | none => { o with properties := o.properties.insert key v }
  | _ => { o with properties := o.properties.insert key v }

/-- Reads a property. -/
def getProperty (h : Heap) (id : ObjectId) (key : String) : Value :=
  HeapObject.property (h.get id) key

/-- Stores a property. -/
def setProperty (h : Heap) (id : ObjectId) (key : String) (v : Value) : Heap :=
  h.modify id fun o => HeapObject.storeProperty o key v

/-- Property names that taint queries never look through. -/
def hiddenProperties : List String := ["caller", "callee", "arguments"]

/-- The named properties of an object, in order, without the hidden ones. -/
def dataProperties (h : Heap) (id : ObjectId) : List (String × Value) :=
  (h.get id).properties.entries.filter fun p => !hiddenProperties.contains p.1

/-- Whether a value has properties of its own. -/
def hasOwnProperties (h : Heap) (v : Value) : Bool :=
  match v.raw with
  | .literal (.string _) => true
  | .object id =>
    let o := h.get id
    match o.kind with
    | .array _ | .function _ => true
    | _ => !o.properties.isEmpty
  | _ => false

/-- The name of the function that constructs objects of this kind. -/
def constructorName (h : Heap) (id : ObjectId) : String :=
  match (h.get id).kind with
  | .plain name => name
  | .array _ => "Array"
  | .map _ => "Map"
  | .set _ => "Set"
  | .function _ => "Function"
  | .global | .objectPrototype | .json => "Object"

/-- A heap with the global object, the root prototype and the JSON object. -/
def initial : Heap :=
  let h : Heap := ⟨#[{ kind := .global }, { kind := .objectPrototype }, { kind := .json }]⟩
  h.setProperty global "JSON" (.object json)

end Heap

end ShadowTaint
