import ShadowTaint.Tracker.Basic
/-!
# What ghost functions do

A ghost function gets its arguments with their shadows. It changes or checks their taint, makes a
function a sink, or opens and closes scopes.

## Main definitions

- `Ghost.run`: what a function does.
-/

namespace ShadowTaint

namespace Ghost

/-- Fails with an assertion unless a condition holds. -/
def require (condition : Bool) (otherwise : FailedAssertion) : HookM Unit :=
  if condition then return else throw (.assertion otherwise)

/-- A bound of a range: a finite number that is not negative, without its fraction. -/
def bound? (m : Memory) (v : Value) : Option Nat :=
  match (m.valueOf v).number? with
  | none => none
  | some n => if n.isFinite && 0.0 <= n then some (Decimal.toIndex n) else none

/-- Where a range begins and how long it is; a range whose end lies before its start is empty. -/
def range (ghost : Ghost) (low high : Value) : HookM (Nat × Nat) := do
  let m := (← get).memory
  match bound? m low, bound? m high with
  | some low, some high => return (low, high - low)
  | _, _ => throw (.assertion (.numericBounds ghost.name))

/-- Sets the taint of `count` characters of a string, one after the other. -/
def setRange (v : Value) (tainted : Bool) (start : Nat) : Nat → HookM Unit
  | 0 => return
  | count + 1 => do
    HookM.onMemory (CheckedM.setPropertyTaint v (toString start) tainted)
    setRange v tainted (start + 1) count

/-- The taint of one key of a string's map. -/
def propertyTaint (v : Value) (key : String) : HookM Bool := do
  match (← get).memory.propertyTaint v key with
  | .ok tainted => return tainted
  | .error e => throw (.chars e)

/-- The indices among `count` ones from `start` on at which a string's character has the given
taint. -/
def stringIndices (v : Value) (tainted : Bool) (start : Nat) : Nat → HookM (List Nat)
  | 0 => return []
  | count + 1 => do
    let here ← propertyTaint v (toString start)
    let rest ← stringIndices v tainted (start + 1) count
    return if here == tainted then start :: rest else rest

/-- The indices among `count` ones from `start` on at which an array's element as a whole has the
given taint. -/
def elementIndices (m : Memory) (v : Value) (tainted : Bool) (start count : Nat) : List Nat :=
  let elements := (m.heap.elements? (m.valueOf v)).getD []
  (List.range' start count).filter fun i =>
    m.taintAll (elements.getD i .undefined) == tainted

/-- What a function does, given the number of arguments that it takes. -/
def effect (ghost : Ghost) (args : List Value) : HookM Unit := do
  let t ← get
  let m := t.memory
  let v := args.getD 0 .undefined
  let second := args.getD 1 .undefined
  let third := args.getD 2 .undefined
  match ghost with
  | .setTaint => HookM.onMemory (MemoryM.setTaint v true)
  | .clearTaint => HookM.onMemory (MemoryM.setTaint v false)
  | .setPropertyTaint => HookM.onMemory (CheckedM.setPropertyTaint v (m.keyText second) true)
  | .clearPropertyTaint => HookM.onMemory (CheckedM.setPropertyTaint v (m.keyText second) false)
  | .setRangeTaint =>
    let (start, count) ← range ghost second third
    setRange v true start count
  | .clearRangeTaint =>
    let (start, count) ← range ghost second third
    setRange v false start count
  | .checkTaint => HookM.onMemory (CheckedM.check v)
  | .checkTaintString =>
    let indices ← stringIndices v true 0 ((m.stringOf? v).getD "").length
    if !indices.isEmpty then
      HookM.logEvent ⟨.info, some ("String has tainted indices: " ++ indexList indices), []⟩
    HookM.onMemory (CheckedM.check v)
  | .assertWrapped => require (m.shadow.isWrapped v) (.notWrapped (t.render v))
  | .assertNotWrapped => require (!m.shadow.isWrapped v) (.wrapped (t.render v))
  | .assertTainted => require (m.taintAll v) .valueUntainted
  | .assertUntainted => require (!m.taintAll v) .valueTainted
  | .assertSomePropertyTainted => require (m.taintAny v) .noPropertyTainted
  | .assertPropertyTainted => require (← propertyTaint v (m.keyText second)) .propertyUntainted
  | .assertPropertyUntainted => require (!(← propertyTaint v (m.keyText second))) .propertyTainted
  | .setSink =>
    let f := m.valueOf v
    require (m.heap.isFunction f) .sinkNotFunction
    let _ ← HookM.registerSink f .custom .custom
  | .assertStringRangeTainted =>
    let (start, count) ← range ghost second third
    let indices ← stringIndices v false start count
    require indices.isEmpty (.untaintedIndices indices)
  | .assertStringRangeUntainted =>
    let (start, count) ← range ghost second third
    let indices ← stringIndices v true start count
    require indices.isEmpty (.taintedIndices indices)
  | .assertArrayRangeTainted =>
    let (start, count) ← range ghost second third
    let indices := elementIndices m v false start count
    require indices.isEmpty (.untaintedIndices indices)
  | .assertArrayRangeUntainted =>
    let (start, count) ← range ghost second third
    let indices := elementIndices m v true start count
    require indices.isEmpty (.taintedIndices indices)
  | .pushScope => modify fun t => { t with scope := t.scope.push }
  | .popScope => match t.scope.pop with
    | .ok scope => modify fun t => { t with scope }
    | .error e => throw (.violation e)

/-- Runs a function on its arguments. Where the settings say so, an assertion that holds ends the
run. -/
def run (ghost : Ghost) (args : List Value) : HookM Unit := do
  if args.length != ghost.arity then
    throw (.assertion (.argumentCount ghost.name ghost.arity args.length))
  ghost.effect args
  if (← get).settings.assertPassed && ghost.isAssertion then throw .completed

end Ghost

end ShadowTaint
