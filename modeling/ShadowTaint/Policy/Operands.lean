import ShadowTaint.Policy.Trees
/-!
# Operands of stores and external calls

The value of a store keeps its shadow, except in arrays that are tracked as a whole. The arguments
of an external call lose their shadows, except for functions that only put an argument into a
container tracked member by member, and for iteration functions whose callback is part of the
analysed program.

## Main definitions

- `Policy.passing`: how the arguments of a call are passed.
- `MemoryM.prepareArguments`, `MemoryM.restoreArguments`: before and after an external call.
-/

namespace ShadowTaint

/-- How the arguments of an external call are passed. -/
inductive Passing where
  /-- Without shadows, also on everything that the arguments reach. -/
  | stripped
  /-- As they are. -/
  | wrapped
  /-- As they are, but for the first one. -/
  | wrappedAfterKey
deriving DecidableEq, Repr

/-- Functions that call their second argument for every member of their first one. -/
def iterationFunctions : List String := ["each", "forEach"]

/-- Whether a call hands every member to a callback of the analysed program. -/
def Memory.iteratesScript (m : Memory) (f : Value) (args : List Value) : Bool :=
  iterationFunctions.contains (m.functionName f) && !(args[1]?).any m.isNative

/-- How a policy passes the arguments of a call on one of its values. -/
def Policy.passing (policy : Policy) (m : Memory) (f : Value) (args : List Value) : Passing :=
  match policy with
  | .container .array .precise => .wrapped
  | .container .map .precise => if m.functionName f = "set" then .wrappedAfterKey else .stripped
  | .container .set .precise => if m.functionName f = "add" then .wrapped else .stripped
  | .lodash => if m.iteratesScript f args then .wrapped else .stripped
  | _ => .stripped

namespace MemoryM

/-- The value of a store as the host gets it. -/
def prepareStored (policy : Policy) (v : Value) : MemoryM Value :=
  match policy with
  | .container .array .imprecise => unwrap v
  | _ => return v

/-- The value of a store after the host stored it. -/
def restoreStored (levels : Levels) (policy : Policy) (v : Value) : MemoryM Value :=
  match policy with
  | .container .array .imprecise => wrap levels v
  | _ => return v

/-- The value of a property descriptor, which keeps its shadow. -/
def descriptorValue? (m : Memory) (descriptor : Value) : Option (ObjectId × Value) :=
  (m.objectOf? descriptor).bind fun id =>
    let v := m.heap.getProperty id "value"
    if v.isUndefined then none else some (id, v)

/-- Takes the shadows off an argument; `kept` is put back afterwards. -/
def stripArgument (arg : Value) (kept : Option (ObjectId × Value)) :
    MemoryM (Value × List TaintTree) := do
  let stripped ← unwrapObject arg
  match kept with
  | some (id, v) => modifyHeap (·.setProperty id "value" v)
  | none => pure ()
  return stripped

/-- Takes the shadows off all arguments and remembers the identities in the current frame. The
third argument of the function that defines properties is a descriptor. -/
def stripArguments (f : Value) (args : List Value) : MemoryM (List Value) := do
  let defines := (← get).functionName f == "defineProperty"
  let stripped ← args.zipIdx.mapM fun (arg, i) => do
    let m ← get
    stripArgument arg (if defines && i == 2 then descriptorValue? m arg else none)
  let trees := stripped.filterMap fun (raw, trees) =>
    match raw.object? with
    | some id => if trees.isEmpty then none else some (id, trees)
    | none => none
  modifyShadow fun s => { s with frame := { s.frame with trees := .ofList trees } }
  return stripped.map (·.1)

/-- The arguments of an external call as the callee gets them. -/
def prepareArguments (policy : Policy) (f : Value) (args : List Value) :
    MemoryM (List Value) := do
  match policy.passing (← get) f args with
  | .wrapped =>
    args.forM reserve
    return args
  | .wrappedAfterKey => match args with
    | [] => return []
    | key :: rest =>
      let key ← unwrap key
      rest.forM reserve
      return key :: rest
  | .stripped => stripArguments f args

/-- Applies an action to all members of a list, the last one first. -/
def mapLastFirst (action : Value → MemoryM Value) : List Value → MemoryM (List Value)
  | [] => return []
  | v :: rest => do
    let rest ← mapLastFirst action rest
    let v ← action v
    return v :: rest

/-- Puts the shadows back on an argument and on what it reaches. -/
def restoreArgument (levels : Levels) (arg : Value) : MemoryM Value := do
  match arg.object? with
  | none => pure ()
  | some id => match (← get).shadow.frame.trees.get? id with
    | none => pure ()
    | some trees => wrapTrees levels id trees
  wrap levels arg

/-- The arguments of an external call after the callee returned. -/
def restoreArguments (levels : Levels) (policy : Policy) (f : Value) (args : List Value) :
    MemoryM (List Value) := do
  match policy.passing (← get) f args with
  | .stripped => mapLastFirst (restoreArgument levels) args
  | _ => mapLastFirst (wrap levels) args

end MemoryM

end ShadowTaint
