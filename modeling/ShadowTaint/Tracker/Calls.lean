import ShadowTaint.Policy.Operands
import ShadowTaint.Propagation
import ShadowTaint.Tracker.Ghosts
/-!
# Hooks of calls

Before a call its arguments are checked against the sinks, a ghost function runs at once, and the
operands of any other function lose their shadows as far as the function must not see them. After
the call the operands and the result are wrapped, and the taint rule of native functions applies.

## Main definitions

- `Call`: a call as the hooks see it.
- `Tracker.callPre`, `Tracker.callPost`: before and after a call.
- `Tracker.enterFunction`, `Tracker.exitFunction`: entry into and exit from a function body.
-/

namespace ShadowTaint

/-- A call as the hooks see it. -/
structure Call where
  f : Value
  base : Value
  args : List Value
  /-- Whether the function is called as a method of the base. -/
  method : Bool := false
  /-- Whether the function is not part of the analysed program. -/
  external : Bool := false
  site : CallSite

namespace Memory

/-- Whether an object was imported from outside the analysed project. -/
def isImportedExternal (m : Memory) (v : Value) : Bool :=
  (m.heap.importTag? (m.valueOf v)).any ImportTag.isExternal

/-- Whether a call leaves the analysed program: the function that loads modules always does, the
functions that call their receiver do when that was imported, and any other one does when the host
says so, when it was imported or when it is native. -/
def isExternalCall (m : Memory) (c : Call) : Bool :=
  match m.builtin? c.f with
  | some .require => true
  | some .call | some .apply | some .bind => m.isImportedExternal c.base
  | _ => c.external || m.isImportedExternal c.f || m.isNative c.f

/-- Whether an external call runs native code. -/
def isNativeCall (m : Memory) (c : Call) : Bool := c.external && m.isNative c.f

/-- The function that a call ends up in: functions that call their receiver are seen through. -/
def calleeOf (m : Memory) (c : Call) : Value :=
  match m.builtin? c.f with
  | some .call | some .apply => m.valueOf c.base
  | _ => m.valueOf c.f

end Memory

/-- The kind of code that a call runs. -/
def CallType.ofCall (external native : Bool) : CallType :=
  if native then .native else if external then .external else .internal

namespace Tracker

/-- Adds a callee to the report about sinks, unless it is there already. -/
def reportSink (t : Tracker) (name : String) : Tracker :=
  if name ∈ t.reported then t
  else { t with reported := name :: t.reported, report := t.report ++ s!"SINKHIT:{name}\n" }

/-- The tainted members of a list with their indices. -/
def taintedArguments (m : Memory) (args : List Value) : List (Value × Nat) :=
  args.zipIdx.filter fun p => m.isTainted p.1

/-- Notes the call in the history of every argument, and refuses tainted arguments of a sink. -/
def checkCall (c : Call) : HookM Unit := do
  let m := (← get).memory
  let callee := m.calleeOf c
  let name := m.functionName callee
  HookM.onMemory (c.args.forM (MemoryM.relabel · s!"call:{name}"))
  let t ← get
  let tainted := taintedArguments t.memory c.args
  if !tainted.isEmpty && t.sinks.isSink t.memory.heap callee then
    if t.settings.sinkReport then set (t.reportSink name)
    else
      let paths ← HookM.onMemory (tainted.mapM fun p => MemoryM.history p.1)
      throw (.finding { kind := .sinkReached name (tainted.map (·.2)), paths })

/-- Takes the shadows off the operands of a call as far as the function must not see them, and
starts a frame for the call. -/
def openCall (c : Call) (native : Bool) (levels : Levels) : CheckedM Call := do
  CheckedM.expectIdle "WInvokeFunPre"
  let f ← MemoryM.unwrap c.f
  if !c.external then
    MemoryM.modifyShadow (·.saveFrame .internal c.site)
    return { c with f }
  let base ← if c.method then MemoryM.unwrap c.base else pure c.base
  let m ← get
  let args ← MemoryM.prepareArguments (levels.policyFor m.heap base) c.f c.args
  MemoryM.modifyShadow (·.saveFrame (.ofCall true native) c.site)
  return { c with f, base, args }

/-- The ghost function that is called, if it is one. -/
def ghostOf? (t : Tracker) (c : Call) : Option Ghost :=
  t.ghosts.find? t.memory.heap (t.memory.valueOf c.f)

/-- The body of `callPre`. -/
def callPreBody (c : Call) (native : Bool) : HookM Call := do
  checkCall c
  let t ← get
  match t.ghostOf? c with
  | none => HookM.onMemory (openCall c native t.settings.policies)
  | some ghost =>
    HookM.onMemory (CheckedM.expectIdle "WGhostCall")
    ghost.run c.args
    return c

/-- Before a call. Returns the operands that the host has to call the function with; those of a
ghost function, which has run by then, are left alone. -/
def callPre (c : Call) : HookM Call := do
  let m := (← get).memory
  let c := { c with external := m.isExternalCall c }
  let native := m.isNativeCall c
  HookM.hook "invoke_fun_pre"
    (fun t => [("f", t.render c.f), ("base", t.render c.base), ("args", t.renderAll c.args),
      ("call_type", (CallType.ofCall c.external native).name)])
    (callPreBody c native)

/-- A function that comes out of a call which received a sink becomes a sink of the same
category. -/
def launderSinks (c : Call) (result : Value) : HookM Unit := do
  let t ← get
  let m := t.memory
  if m.heap.isFunction (m.valueOf result) then
    match c.args.findSome? fun arg => t.sinks.find? m.heap (m.valueOf arg) with
    | none => return
    | some pattern =>
      let _ ← HookM.registerSink (m.valueOf result) .laundered pattern.category

/-- Goes back to the frame of the caller and wraps the operands and the result of a call. -/
def closeCall (c : Call) (result : Value) (levels : Levels) : CheckedM (Call × Value) := do
  match (← get).shadow.restoreFrame c.site with
  | .error e => throw (.violation e)
  | .ok shadow => MemoryM.modifyShadow fun _ => shadow
  let c ←
    if c.external then do
      let m ← get
      let args ← MemoryM.restoreArguments levels (m.policyOf levels c.base) c.f c.args
      let base ← if c.method then MemoryM.wrap levels c.base else pure c.base
      pure { c with base, args }
    else pure c
  let f ← MemoryM.wrap levels c.f
  let result ← MemoryM.wrap levels result
  CheckedM.checkPending "WInvokeFun" 0
  return ({ c with f }, result)

/-- The taint rule for a native function that returned; a function that returned nothing has
none. -/
def propagateCall (c : Call) (result : Value) (levels : Levels) : MemoryM Unit := do
  let m ← get
  if !(m.valueOf result).isUndefined then
    (m.policyOf levels c.base).call levels ⟨c.f, c.base, c.args, result⟩

/-- Tags the object that loading a module returned. -/
def tagImport (c : Call) (result : Value) : HookM Unit := do
  let m := (← get).memory
  match m.objectOf? result, c.args.head?.bind m.stringOf? with
  | some id, some path =>
    let tag := ImportTag.classify path
    HookM.logEvent ⟨.debug, some "tagged import",
      [("module", tag.modulePath), ("kind", tag.kind.name)]⟩
    HookM.onMemory (MemoryM.modifyHeap (·.setImportTag id tag))
  | _, _ => return

/-- The body of `callPost`. -/
def callPostBody (c : Call) (result : Value) (native : Bool) : HookM (Call × Value) := do
  let t ← get
  if (t.ghostOf? c).isSome then return (c, result)
  if c.external || t.settings.aggressiveSinkPropagation then launderSinks c result
  let builtin := t.memory.builtin? c.f
  let levels := t.settings.policies
  let (c, result) ← HookM.onMemory (closeCall c result levels)
  if native then HookM.onMemory (propagateCall c result levels)
  if builtin = some .require then tagImport c result
  return (c, result)

/-- After a call with the operands that `callPre` returned. Returns the wrapped operands and the
wrapped result. -/
def callPost (c : Call) (result : Value) : HookM (Call × Value) := do
  let native := (← get).memory.isNativeCall c
  HookM.hook "invoke_fun"
    (fun t => [("f", t.render c.f), ("base", t.render c.base), ("args", t.renderAll c.args),
      ("result", t.render result)])
    (callPostBody c result native)

/-- The names of functions that run as native code although they are entered like any other. -/
def nativeEntryNames : List String := ["toString", "valueOf"]

/-- The kind of code that a function body runs. -/
def entryType (m : Memory) (f : Value) : CallType :=
  let name := ((m.heap.function? (m.valueOf f)).map (·.name)).getD ""
  if nativeEntryNames.contains name then .native else .internal

/-- The body of `enterFunction`. Where identities are reserved, the function was entered in the
middle of an operation, and the frame of the operation is saved. -/
def enterFunctionBody (f : Value) : CheckedM Unit := do
  let m ← get
  let callType := entryType m f
  if m.shadow.pendingCount = 0 then MemoryM.modifyShadow (·.setCallType callType)
  else MemoryM.modifyShadow (·.saveFrame callType functionEntrySite)
  CheckedM.expectIdle "WFunctionEnter"

/-- A function body is entered. -/
def enterFunction (f : Value) : HookM Unit :=
  HookM.memoryHook "function_enter" (fun t => [("f", t.render f)]) fun _ => enterFunctionBody f

/-- The body of `exitFunction`. -/
def exitFunctionBody (threw : Bool) : CheckedM Unit := do
  if threw then
    MemoryM.modifyShadow (·.resetFrame)
    CheckedM.checkPending "WFunctionExit" 0
  else
    let s := (← get).shadow
    if s.frame.callSite = functionEntrySite then
      match s.restoreFrame functionEntrySite with
      | .error e => throw (.violation e)
      | .ok shadow => MemoryM.modifyShadow fun _ => shadow

/-- A function body is left, by an exception or not. -/
def exitFunction (threw : Bool) : HookM Unit :=
  HookM.memoryHook "function_exit" (fun _ => [("threw", if threw then "true" else "false")])
    fun _ => exitFunctionBody threw

end Tracker

end ShadowTaint
