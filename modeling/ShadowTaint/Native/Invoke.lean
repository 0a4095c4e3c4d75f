import ShadowTaint.Native.Strings
/-!
# Running native functions

A native function gets the heap, a receiver and arguments. It returns a value and the heap after
the call, or fails and leaves the heap alone.

## Main definitions

- `Native.run`: runs an implementation.
- `Heap.invoke`: runs the implementation behind a function value.
- `Builtins.install`: a heap with all methods and specially treated functions.
- `Heap.allocProcessModule`: the exports of the module that starts other programs.
-/

namespace ShadowTaint

/-- What a native function comes to. -/
abbrev NativeResult := Except NativeError (Value × Heap)

/-- Runs a string method on a receiver. -/
def StringMethod.invoke (m : StringMethod) (h : Heap) (this : Value) (args : List Value) :
    NativeResult :=
  match this.string? with
  | none => .error (.notString m)
  | some s => match m.run h s.toList args with
    | .error e => .error e
    | .ok (.literal l) => .ok (.literal l, h)
    | .ok (.texts pieces) => .ok (h.allocArray (pieces.map fun cs => .string (String.ofList cs)))

/-- The text of an array's elements with a separator between neighbours. -/
def joinElements (h : Heap) (separator : String) (elements : List Value) : String :=
  separator.intercalate (elements.map fun e => if e.isNullish then "" else h.keyText e)

/-- Runs an array method on a receiver. -/
def ArrayMethod.invoke (m : ArrayMethod) (h : Heap) (this : Value) (args : List Value) :
    NativeResult :=
  match h.elements? this with
  | none => .error (.notArray m)
  | some elements => match m with
    | .push =>
      let elements := elements ++ args
      .ok (.number (Decimal.ofNat elements.length), h.setElements this elements)
    | .join => .ok (.string (joinElements h ((textArgument? h args 0).getD ",") elements), h)

/-- Stores a value in the entries of a map under a key. -/
def putEntryUnder (key v : Value) : List (Value × Value) → List (Value × Value)
  | [] => [(key, v)]
  | (k, w) :: rest => if k.sameKey key then (k, v) :: rest else (k, w) :: putEntryUnder key v rest

/-- The value in the entries of a map under a key. -/
def entryUnder? (key : Value) : List (Value × Value) → Option Value
  | [] => none
  | (k, v) :: rest => if k.sameKey key then some v else entryUnder? key rest

/-- The entries of a map object. -/
def Heap.mapEntries? (h : Heap) (v : Value) : Option (ObjectId × List (Value × Value)) :=
  match v.object? with
  | none => none
  | some id => match (h.get id).kind with
    | .map entries => some (id, entries)
    | _ => none

/-- The members of a set object. -/
def Heap.setMembers? (h : Heap) (v : Value) : Option (ObjectId × List Value) :=
  match v.object? with
  | none => none
  | some id => match (h.get id).kind with
    | .set members => some (id, members)
    | _ => none

/-- Runs a map method on a receiver. -/
def MapMethod.invoke (m : MapMethod) (h : Heap) (this : Value) (args : List Value) :
    NativeResult :=
  match h.mapEntries? this with
  | none => .error .notMap
  | some (id, entries) =>
    let key := args.headD .undefined
    match m with
    | .get => .ok ((entryUnder? key entries).getD .undefined, h)
    | .set => .ok (this, h.setKind id (.map (putEntryUnder key (args.getD 1 .undefined) entries)))

/-- Runs a set method on a receiver. -/
def SetMethod.invoke (m : SetMethod) (h : Heap) (this : Value) (args : List Value) :
    NativeResult :=
  match h.setMembers? this with
  | none => .error .notSet
  | some (id, members) => match m with
    | .add =>
      let v := args.headD .undefined
      if members.any fun w => w.sameKey v then .ok (this, h)
      else .ok (this, h.setKind id (.set (members ++ [v])))
    | .values => .ok (h.allocArray members)

/-- Runs a function that would start another program. -/
def ProcessMethod.invoke (m : ProcessMethod) (h : Heap) : NativeResult :=
  match m with
  | .exec | .execFile => .ok (.undefined, h)
  | .execSync => .ok (.string "", h)
  | .spawn | .spawnSync => .ok (h.allocPlain "ChildProcess")

/-- Runs a canned behaviour. -/
def HostBehaviour.invoke (b : HostBehaviour) (h : Heap) (this : Value) (args : List Value) :
    NativeResult :=
  match b with
  | .nothing => .ok (.undefined, h)
  | .receiver => .ok (this, h)
  | .firstArgument => .ok (args.headD .undefined, h)
  | .argumentCount => .ok (.number (Decimal.ofNat args.length), h)
  | .argumentArray => .ok (h.allocArray args)
  | .failing => .error .thrownByHost

/-- The implementation behind a function value. -/
def Heap.native? (h : Heap) (f : Value) : Except NativeError Native :=
  match h.function? f with
  | none => .error .notFunction
  | some fn => match fn.native with
    | none => .error (.unavailable fn.name)
    | some n => .ok n

/-- Runs an implementation; functions that call their receiver are followed at most `depth`
times. -/
def Native.runWithin (h : Heap) : Nat → Native → Value → List Value → NativeResult
  | _, .string m, this, args => m.invoke h this args
  | _, .array m, this, args => m.invoke h this args
  | _, .map m, this, args => m.invoke h this args
  | _, .set m, this, args => m.invoke h this args
  | _, .process m, _, _ => m.invoke h
  | _, .host b, this, args => b.invoke h this args
  | _, .construct, _, _ => .ok (h.allocScript "anonymous")
  | _, .unavailable, this, _ =>
    .error (.unavailable (((h.function? this).map (·.name)).getD "function"))
  | 0, .call, _, _ => .error .tooDeep
  | 0, .apply, _, _ => .error .tooDeep
  | depth + 1, .call, this, args => match h.native? this with
    | .error e => .error e
    | .ok n => runWithin h depth n (args.headD .undefined) args.tail
  | depth + 1, .apply, this, args => match h.native? this with
    | .error e => .error e
    | .ok n =>
      runWithin h depth n (args.headD .undefined) ((args[1]?.bind h.elements?).getD [])

/-- How many values the arrays of the heap hold, the arrays themselves included. -/
def Heap.elementTotal (h : Heap) : Nat :=
  h.objects.foldl (fun n o => match o.kind with
    | .array elements => n + elements.length + 1
    | _ => n + 1) 0

/-- Runs an implementation. Every function that calls its receiver drops an argument or opens one
array of arguments, so the depth is bounded unless an array contains itself. -/
def Native.run (n : Native) (h : Heap) (this : Value) (args : List Value) : NativeResult :=
  n.runWithin h (args.length + h.elementTotal + 1) this args

/-- Runs the implementation behind a function value. -/
def Heap.invoke (h : Heap) (f this : Value) (args : List Value) : NativeResult :=
  match h.native? f with
  | .error e => .error e
  | .ok n => n.run h this args

/-- Adds an object that holds a native function under each name. -/
def Heap.allocMethods (h : Heap) (methods : List (String × Native)) : ObjectId × Heap :=
  let (id, h) := h.alloc { kind := .plain "Object" }
  (id, methods.foldl (fun h m =>
    let (f, h) := h.allocNative m.1 m.2
    h.setProperty id m.1 f) h)

/-- Adds the exports of the module that starts other programs. -/
def Heap.allocProcessModule (h : Heap) : Value × Heap :=
  let (id, h) := h.allocMethods (ProcessMethod.all.map fun m => (m.name, .process m))
  (.object id, h)

/-- Where the methods and the specially treated functions lie on a heap. -/
structure Builtins where
  stringPrototype : ObjectId
  arrayPrototype : ObjectId
  mapPrototype : ObjectId
  setPrototype : ObjectId
  call : Value
  apply : Value
  bind : Value
  require : Value
  eval : Value
  functionConstructor : Value

/-- Adds all methods and the specially treated functions to a heap. -/
def Builtins.install (h : Heap) : Builtins × Heap :=
  let special (h : Heap) (name : String) (builtin : Builtin) (native : Native) : Value × Heap :=
    h.allocKind (.function { name, native := some native, builtin := some builtin })
  let (stringPrototype, h) :=
    h.allocMethods (StringMethod.all.map fun m => (m.name, .string m))
  let (arrayPrototype, h) :=
    h.allocMethods ([ArrayMethod.join, .push].map fun m => (m.name, .array m))
  let (mapPrototype, h) := h.allocMethods ([MapMethod.get, .set].map fun m => (m.name, .map m))
  let (setPrototype, h) := h.allocMethods ([SetMethod.add, .values].map fun m => (m.name, .set m))
  let (call, h) := special h "call" .call .call
  let (apply, h) := special h "apply" .apply .apply
  let (bind, h) := special h "bind" .bind .unavailable
  let (require, h) := special h "require" .require .unavailable
  let (eval, h) := special h "eval" .eval .unavailable
  let (functionConstructor, h) := special h "Function" .functionConstructor .construct
  let h := h.setProperty Heap.global "require" require
  let h := h.setProperty Heap.global "eval" eval
  let h := h.setProperty Heap.global "Function" functionConstructor
  ({ stringPrototype, arrayPrototype, mapPrototype, setPrototype, call, apply, bind, require, eval,
     functionConstructor }, h)

end ShadowTaint
