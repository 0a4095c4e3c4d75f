import ShadowTaint.Decimal.Text
/-!
# Values of the analysed program

A value is a literal, a heap object, or a *shadow*: the handle that stands for a literal and carries
the identity under which its taint is recorded. Shadows hold literals only; objects are their own
identity.
-/

namespace ShadowTaint

/-- The number of a heap object. -/
abbrev ObjectId := Nat

/-- The number of a shadow handle. -/
structure Handle where
  index : Nat
deriving DecidableEq, Repr

/-- The identity under which a literal is tracked. -/
structure Identity where
  index : Nat
deriving DecidableEq, Repr

/-- The text of an identity. -/
def Identity.text (id : Identity) : String := s!"ID({id.index})"

/-- A value without identity. -/
inductive Literal where
  | undefined
  | null
  | bool (b : Bool)
  | number (n : Float)
  | string (s : String)

instance : Inhabited Literal := ⟨.undefined⟩

namespace Literal

/-- The text of a literal in property keys and concatenations. -/
def text : Literal → String
  | .undefined => "undefined"
  | .null => "null"
  | .bool b => if b then "true" else "false"
  | .number n => Decimal.text n
  | .string s => s

/-- The name of a literal's type. -/
def typeName : Literal → String
  | .undefined => "undefined"
  | .null => "object"
  | .bool _ => "boolean"
  | .number _ => "number"
  | .string _ => "string"

/-- Whether the literal is undefined or null. -/
def isNullish : Literal → Bool
  | .undefined | .null => true
  | _ => false

/-- Equality of literals as container keys: not-a-number equals itself, and the two zeros are
equal. -/
def sameKey : Literal → Literal → Bool
  | .undefined, .undefined => true
  | .null, .null => true
  | .bool a, .bool b => a == b
  | .number x, .number y => x == y || (x.isNaN && y.isNaN)
  | .string s, .string t => s == t
  | _, _ => false

end Literal

/-- A value as the analysed program sees it. -/
inductive Value where
  | literal (l : Literal)
  | object (id : ObjectId)
  | shadow (handle : Handle) (identity : Identity) (raw : Literal)

instance : Inhabited Value := ⟨.literal .undefined⟩

namespace Value

/-- The undefined value. -/
abbrev undefined : Value := .literal .undefined

/-- A string value. -/
abbrev string (s : String) : Value := .literal (.string s)

/-- A number value. -/
abbrev number (n : Float) : Value := .literal (.number n)

/-- The value without its shadow. -/
def raw : Value → Value
  | .shadow _ _ l => .literal l
  | v => v

/-- The literal that a value is or stands for. -/
def literal? : Value → Option Literal
  | .literal l => some l
  | .shadow _ _ l => some l
  | .object _ => none

/-- The heap object that a value is. -/
def object? : Value → Option ObjectId
  | .object id => some id
  | _ => none

/-- The string that a value is or stands for. -/
def string? (v : Value) : Option String :=
  match v.literal? with
  | some (.string s) => some s
  | _ => none

/-- The number that a value is or stands for. -/
def number? (v : Value) : Option Float :=
  match v.literal? with
  | some (.number n) => some n
  | _ => none

/-- Whether the value is a literal without a shadow. -/
def isBareLiteral : Value → Bool
  | .literal _ => true
  | _ => false

/-- Whether the value is, or stands for, undefined. -/
def isUndefined (v : Value) : Bool :=
  match v.literal? with
  | some .undefined => true
  | _ => false

/-- Whether the value is, or stands for, undefined or null. -/
def isNullish (v : Value) : Bool :=
  match v.literal? with
  | some l => l.isNullish
  | none => false

/-- Equality of values as container keys, shadows put aside. -/
def sameKey (a b : Value) : Bool :=
  match a.literal?, b.literal? with
  | some l, some k => l.sameKey k
  | none, none => a.object? == b.object?
  | _, _ => false

@[simp] theorem raw_raw (v : Value) : v.raw.raw = v.raw := by cases v <;> rfl

@[simp] theorem literal?_raw (v : Value) : v.raw.literal? = v.literal? := by cases v <;> rfl

@[simp] theorem object?_raw (v : Value) : v.raw.object? = v.object? := by cases v <;> rfl

end Value

end ShadowTaint
