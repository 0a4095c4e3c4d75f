import ShadowTaint.Propagation.Text
/-!
# How taint spreads through containers

A container that is tracked as a whole is tainted when a tainted value is put into it, and what is
taken out of a tainted container is tainted. A container that is tracked member by member holds
shadows, which carry their own taint; only what a native function computes from all members needs
a rule.

## Main definitions

- `ContainerRule.taintReceiver`, `taintRead`: putting in and taking out.
- `ArrayRule.join`, `mapped`, `reduced`: what array functions compute from all elements.
-/

namespace ShadowTaint

namespace ContainerRule

/-- Taints a container as a whole and leaves the taint of its characters alone. -/
def taintWhole (label : String) (v : Value) : MemoryM Unit := do
  let e ← MemoryM.entry v
  MemoryM.record v true e.chars label [e.path]

/-- A tainted argument taints the receiver. -/
def taintReceiver (label : String) (c : NativeCall) : MemoryM Unit := do
  if c.args.any (← get).isTainted then taintWhole label c.base

/-- What is taken out of a tainted container is tainted. -/
def taintRead (label : String) (c : NativeCall) : MemoryM Unit := do
  let m ← get
  let base ← MemoryM.entry c.base
  MemoryM.recordWhole c.result (m.taintBit c.result || base.bit || m.anyProps c.base) label
    [base.path]

end ContainerRule

namespace ArrayRule

/-- The elements of an array, and none for other values. -/
def elements (m : Memory) (v : Value) : List Value := (m.heap.elements? (m.valueOf v)).getD []

/-- An argument whose bit is set taints the receiver. -/
def push (c : NativeCall) : MemoryM Bool := do
  if c.args.any (← get).taintBit then ContainerRule.taintWhole "model:array.push" c.base
  return true

/-- The taint of the characters that an element contributes to a joined text. -/
def elementBits (m : Memory) (v : Value) : List Bool := if v.isNullish then [] else m.charBits v

/-- The characters of the elements with those of the separator, which are untainted, between
them. -/
def join (c : NativeCall) : MemoryM Bool := do
  if 1 < c.args.length then return false
  let m ← get
  let separator := List.replicate (TextRule.separatorLength m c.args[0]? 1) false
  let elements := elements m c.base
  let bits := separator.intercalate (elements.map (elementBits m))
  TextRule.storeBits c.result bits "model:array.join" (← elements.mapM MemoryM.history)

/-- A mapped element without a history of its own is tainted when the element it was computed from
is, or when the array is. -/
def mapped (c : NativeCall) : MemoryM Bool := do
  let m ← get
  let inputs := elements m c.base
  let outputs := elements m c.result
  if inputs.length != outputs.length then return false
  let whole := m.taintBit c.base
  (inputs.zip outputs).forM fun (input, output) => do
    let m ← get
    if !(← MemoryM.history output).hasParents then
      MemoryM.recordWhole output (whole || m.isTainted input) "model:array.map"
        [← MemoryM.history input]
  return true

/-- The elements from the first tainted one on. -/
def fromFirstTainted (m : Memory) (whole : Bool) (elements : List Value) : List Value :=
  if whole then elements else elements.dropWhile fun v => !m.isTainted v

/-- A value computed from all elements that has no history of its own is tainted when one of the
elements is, or when the array is. -/
def reduced (c : NativeCall) : MemoryM Bool := do
  let m ← get
  if (m.entryOf c.result).path.hasParents || m.anyProps c.result then return true
  let sources := fromFirstTainted m (m.taintBit c.base) (elements m c.base)
  let tainted := m.taintBit c.base || !sources.isEmpty
  MemoryM.recordWhole c.result tainted "model:array.reduce" (← sources.mapM MemoryM.history)
  return true

/-- The functions of arrays that have a rule of their own. -/
def model? : Grain → String → Option (NativeCall → MemoryM Bool)
  | .imprecise, "push" => some push
  | .precise, "join" => some join
  | .precise, "map" => some mapped
  | .precise, "reduce" => some reduced
  | .precise, "reduceRight" => some reduced
  | _, _ => none

end ArrayRule

namespace ContainerRule

/-- The functions of maps and sets that have a rule of their own. Where the members are tracked,
putting in and taking out need none. -/
def model? : Container → Grain → String → Option (NativeCall → MemoryM Unit)
  | .map, .imprecise, "set" => some (taintReceiver "model:map.set")
  | .map, .imprecise, "get" => some (taintRead "model:map.get")
  | .set, .imprecise, "add" => some (taintReceiver "model:set.add")
  | .set, .imprecise, "values" => some (taintRead "model:set.values")
  | .map, .precise, "set" => some fun _ => return
  | .map, .precise, "get" => some fun _ => return
  | .set, .precise, "add" => some fun _ => return
  | .set, .precise, "values" => some fun _ => return
  | _, _, _ => none

/-- The result of a native function on a container: by its own rule, else by the rule of
objects. -/
def call (levels : Levels) (kind : Container) (grain : Grain) (c : NativeCall) :
    MemoryM Unit := do
  let name := (← get).functionName c.f
  if let some model := model? kind grain name then
    model c
  else
    if kind = .array then
      if let some model := ArrayRule.model? grain name then
        if ← model c then return
    ObjectRule.call (some levels.objectGrain) c

end ContainerRule

end ShadowTaint
