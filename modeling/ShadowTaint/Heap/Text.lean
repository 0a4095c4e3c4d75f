import ShadowTaint.Heap.Basic
/-!
# Texts of values

Three texts of a value: the name of its type, the key it is coerced to, and a short description
for people.
-/

namespace ShadowTaint

namespace Heap

/-- The name of a value's type. -/
def typeName (h : Heap) (v : Value) : String :=
  match v.raw with
  | .literal l => l.typeName
  | _ => if h.isFunction v then "function" else "object"

/-- The key of a value that is not an array. -/
def plainKeyText (h : Heap) (v : Value) : String :=
  match v.literal? with
  | some l => l.text
  | none => match h.function? v with
    | some f => "function " ++ f.name ++ "() \x7b [native code] \x7d"
    | none => "[object Object]"

/-- The key of a value in which arrays are opened at most `depth` times; an array that lies deeper
contributes nothing. -/
def keyTextWithin (h : Heap) : Nat → Value → String
  | 0, v => if (h.elements? v).isSome then "" else h.plainKeyText v
  | depth + 1, v => match h.elements? v with
    | none => h.plainKeyText v
    | some elements =>
      ",".intercalate (elements.map fun e => if e.isNullish then "" else keyTextWithin h depth e)

/-- The key that a value is coerced to: the text of a literal, the elements of an array between
commas, and a fixed text for other objects. No array that does not contain itself is nested deeper
than the heap has objects. -/
def keyText (h : Heap) (v : Value) : String := h.keyTextWithin h.objects.size v

/-- The description of a value, where arrays and plain objects are opened up to `depth` levels
deep. -/
def describeWithin (h : Heap) : Nat → Value → String
  | depth, v => match v.raw with
    | .literal (.string s) => "'" ++ s ++ "'"
    | .literal l => l.text
    | .shadow _ _ l => l.text
    | .object id =>
      let o := h.get id
      match o.kind with
      | .function f => if f.name = "" then "[Function (anonymous)]" else s!"[Function: {f.name}]"
      | .global => "Object [global]"
      | .objectPrototype => "[Object: null prototype] \x7b\x7d"
      | .json => "Object [JSON] \x7b\x7d"
      | .map entries => s!"Map({entries.length}) \x7b\x7d"
      | .set members => s!"Set({members.length}) \x7b\x7d"
      | .array elements => match depth with
        | 0 => "[Array]"
        | depth + 1 =>
          if elements.isEmpty then "[]"
          else "[ " ++ ", ".intercalate (elements.map (describeWithin h depth)) ++ " ]"
      | .plain _ => match depth with
        | 0 => "[Object]"
        | depth + 1 =>
          if o.properties.isEmpty then "\x7b\x7d"
          else "\x7b " ++ ", ".intercalate (o.properties.entries.map fun p =>
            p.1 ++ ": " ++ describeWithin h depth p.2) ++ " \x7d"

/-- The description of a value, cut to a number of characters. -/
def describe (h : Heap) (v : Value) (limit : Nat) : String :=
  String.ofList ((h.describeWithin 2 v).toList.take limit)

end Heap

end ShadowTaint
