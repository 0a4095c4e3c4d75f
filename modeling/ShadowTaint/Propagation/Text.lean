import ShadowTaint.Memory.Wrap
import ShadowTaint.Native.Invoke
import ShadowTaint.Propagation.Object
import ShadowTaint.Taint.Encoding
/-!
# How taint spreads through the characters of strings

Where strings are tracked precisely, every character has its own taint. For a few methods the
characters of the result are known from those of the receiver and the arguments. Any other native
function that returns a string runs once more on strings that carry the taint of their characters
in their code points; what it copies is then read off its result.

## Main definitions

- `TextRule.model?`: the methods whose results are known.
- `TextRule.rerun`: reading the taint off a second run.
- `TextRule.getField`, `binary`, `call`: the rules, with the rules of objects where these do not
  apply.
-/

namespace ShadowTaint.TextRule

/-- Stores the taint of the characters of a string. Nothing is stored unless the result is a string
with as many characters. -/
def storeBits (result : Value) (bits : List Bool) (label : String)
    (parents : List Provenance.Node) : MemoryM Bool := do
  if ((← get).stringOf? result).map String.length != some bits.length then return false
  let map := CharMap.ofBits bits
  MemoryM.record result map.all (some map) label parents
  return true

/-- A position given by an argument, brought into a text of `length` characters; `fallback` where
the argument is missing or undefined. -/
def position (m : Memory) (arg : Option Value) (fallback length : Nat) : Nat :=
  match arg.map m.valueOf with
  | none => fallback
  | some v =>
    if v.isUndefined then fallback
    else
      let n := v.number?.getD ((spelledNumber? (m.heap.keyText v)).getD 0.0)
      if n.isNaN || n <= 0.0 then 0 else min (Decimal.toIndex n) length

/-- How many characters a separator has; `fallback` where it is missing or undefined. -/
def separatorLength (m : Memory) (arg : Option Value) (fallback : Nat) : Nat :=
  match arg.map m.valueOf with
  | none => fallback
  | some v => if v.isUndefined then fallback else (m.heap.keyText v).length

/-- The characters of the receiver between an opening and a closing tag. -/
def blink (c : NativeCall) : MemoryM Bool := do
  if !c.args.isEmpty then return false
  let bits := List.replicate "<blink>".length false ++ (← get).charBits c.base ++
    List.replicate "</blink>".length false
  storeBits c.result bits "model:string.blink" [← MemoryM.history c.base]

/-- The characters of the receiver between two positions. -/
def substring (c : NativeCall) : MemoryM Bool := do
  if c.args.length != 1 && c.args.length != 2 then return false
  let m ← get
  let base := m.charBits c.base
  let a := position m c.args[0]? 0 base.length
  let b := position m c.args[1]? base.length base.length
  storeBits c.result (charsBetween base (min a b) (max a b)) "model:string.substring"
    [← MemoryM.history c.base]

/-- The characters of the receiver and those of the arguments. -/
def concat (c : NativeCall) : MemoryM Bool := do
  if c.args.isEmpty then return false
  let operands := c.base :: c.args
  let bits := operands.flatMap (← get).charBits
  storeBits c.result bits "model:string.concat" (← operands.mapM MemoryM.history)

/-- Every character of the receiver in its place. -/
def sameShape (c : NativeCall) : MemoryM Bool := do
  if !c.args.isEmpty then return false
  let m ← get
  storeBits c.result (m.charBits c.base) ("model:string." ++ m.functionName c.f)
    [← MemoryM.history c.base]

/-- A number that is read off one character of the receiver. -/
def characterCode (c : NativeCall) : MemoryM Bool := do
  if c.args.length != 1 then return false
  let m ← get
  let base := m.charBits c.base
  let tainted := base.getD (position m c.args[0]? 0 base.length) false
  MemoryM.record c.result tainted none ("model:string." ++ m.functionName c.f)
    [← MemoryM.history c.base]
  return true

/-- Sets the bit of a value and leaves the rest of its taint alone. -/
def setBit (v : Value) : MemoryM Unit := do
  MemoryM.store v { ← MemoryM.entry v with bit := true }

/-- Gives the words of a split string shadows with the taint of the characters they were cut out
of. `start` is the position at which the first of the words begins. Returns the shadows and whether
all words are tainted. -/
def wrapWords (base : List Bool) (path : Provenance.Node) (separator : Nat) :
    Nat → List Value → MemoryM (List Value × Bool)
  | _, [] => return ([], true)
  | start, word :: rest => do
    let m ← get
    let raw := m.valueOf word
    let length := (m.heap.keyText raw).length
    let bits := (List.range length).map fun i => base.getD (start + i) false
    let element ← MemoryM.wrapFresh raw
    MemoryM.record element (bits.all id) (some (.ofBits bits)) "model:string.split" [path]
    let (elements, all) ← wrapWords base path separator (start + length + separator) rest
    return (element :: elements, bits.all id && all)

/-- The words of the receiver. Where arrays are tracked as a whole, the array is tainted when
anything in the receiver is; else every word gets its characters' taint. -/
def split (levels : Levels) (c : NativeCall) : MemoryM Bool := do
  if 2 < c.args.length then return false
  let m ← get
  let array := m.valueOf c.result
  match m.heap.elements? array with
  | none => return false
  | some words =>
    if levels.precision .array != .precise then
      if m.anyProps c.base then setBit c.result
      return true
    let separator := separatorLength m c.args[0]? 0
    let path ← MemoryM.history c.base
    let (elements, all) ← wrapWords (m.charBits c.base) path separator 0 words
    MemoryM.modifyHeap (·.setElements array elements)
    if all then setBit c.result
    return true

/-- The methods whose results are known from their operands. -/
def model? (levels : Levels) : String → Option (NativeCall → MemoryM Bool)
  | "blink" => some blink
  | "substring" => some substring
  | "concat" => some concat
  | "toUpperCase" => some sameShape
  | "toLowerCase" => some sameShape
  | "charCodeAt" => some characterCode
  | "codePointAt" => some characterCode
  | "split" => some (split levels)
  | _ => none

/-- The text of a value with the taint of its characters in its code points. -/
def encoded (m : Memory) (v : Value) : Except Encoding.EncodeError (List Char) :=
  Encoding.encode (m.keyText v).toList (m.charBits v)

/-- An argument for the second run: strings are encoded, other values stay. -/
def encodedArgument (m : Memory) (v : Value) : Except Encoding.EncodeError Value :=
  match m.stringOf? v with
  | some _ => (encoded m v).map fun cs => .string (String.ofList cs)
  | none => .ok (m.valueOf v)

/-- Runs a native function once more on encoded strings. Returns the result if it is a string. What
the function does to the heap stays done. -/
def runEncoded (c : NativeCall) : MemoryM (Option String) := do
  let m ← get
  if (m.stringOf? c.base).isNone || (m.stringOf? c.result).isNone then return none
  match (m.heap.function? (m.valueOf c.f)).bind (·.native),
      encodedArgument m c.base, c.args.mapM (encodedArgument m) with
  | some native, .ok base, .ok args => match native.run m.heap base args with
    | .error _ => return none
    | .ok (output, heap) =>
      MemoryM.modifyHeap fun _ => heap
      return output.string?
  | _, _, _ => return none

/-- Reads the taint of the result off a second run. Nothing is stored where the function cannot be
run again, or where its result then reads differently. -/
def rerun (c : NativeCall) : MemoryM Bool := do
  let m ← get
  let parents ← (c.base :: c.args).mapM MemoryM.history
  match ← runEncoded c with
  | none => return false
  | some output =>
    let (text, bits) := Encoding.decode output.toList
    if m.stringOf? c.result != some (String.ofList text) then return false
    storeBits c.result bits ("precise:string." ++ m.functionName c.f) parents

/-- A character that is read has its own taint. -/
def getField (levels : Levels) (ops : Operands) : MemoryM Unit := do
  let m ← get
  let base ← MemoryM.entry ops.base
  match base.chars with
  | none => ObjectRule.getField levels.objectGrain ops
  | some _ =>
    MemoryM.recordWhole ops.value (base.propertyTaint (m.keyText ops.offset)) "string.GetField"
      [base.path]

/-- The taint of the characters of a concatenation: those of the left operand, then those of the
right one. -/
def concatenate (ops : Operands) : MemoryM Bool := do
  let m ← get
  match encoded m ops.base, encoded m ops.offset with
  | .ok left, .ok right =>
    let (text, bits) := Encoding.decode (left ++ right)
    if m.stringOf? ops.value != some (String.ofList text) then return false
    let parents ← [ops.base, ops.offset].mapM MemoryM.history
    storeBits ops.value bits "precise:string.concat" parents
  | _, _ => return false

/-- The result of a concatenation has the taint of its characters; other operators have the rule of
objects. -/
def binary (levels : Levels) (op : String) (ops : Operands) : MemoryM Unit := do
  let m ← get
  let concatenates :=
    op == "+" && !(m.valueOf ops.base).isUndefined && !(m.valueOf ops.offset).isUndefined
  if concatenates then
    if ← concatenate ops then return
  ObjectRule.binary levels.objectGrain op ops

/-- The result of a native function: by its model, else by a second run, else by the rule of
objects. -/
def call (levels : Levels) (c : NativeCall) : MemoryM Unit := do
  if let some model := model? levels ((← get).functionName c.f) then
    if ← model c then return
  if ← rerun c then return
  ObjectRule.call (some levels.objectGrain) c

end ShadowTaint.TextRule
