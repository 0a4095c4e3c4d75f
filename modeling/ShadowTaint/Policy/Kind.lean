import ShadowTaint.Heap.Basic
import ShadowTaint.Text.Case
/-!
# Which policy a value has

A value is classified by what it is: a literal's type, an object's kind, the module it was imported
from, or the name of its constructor. The class and the precision configured for it decide on a
policy.

## Main definitions

- `ValueKind.of`: the class of a value.
- `Policy.registered?`: the policy of a class at one level of precision.
- `Levels.policyFor`: the policy of a value.
-/

namespace ShadowTaint

/-- How precisely a class of values is tracked. -/
inductive Precision where
  | default
  | imprecise
  | precise
deriving DecidableEq, Repr

namespace Precision

/-- The name of a precision. -/
def name : Precision → String
  | .default => "default"
  | .imprecise => "imprecise"
  | .precise => "precise"

/-- Reads a precision. -/
def parse? : String → Option Precision
  | "default" => some .default
  | "imprecise" => some .imprecise
  | "precise" => some .precise
  | _ => none

end Precision

/-- The classes of values. -/
inductive ValueKind where
  | object
  | string
  | array
  | map
  | set
  | global
  | lodash
  | other (name : String)
deriving DecidableEq, Repr

namespace ValueKind

/-- The class with a name. -/
def ofName : String → ValueKind
  | "object" => .object
  | "string" => .string
  | "array" => .array
  | "map" => .map
  | "set" => .set
  | "global" => .global
  | "lodash" => .lodash
  | name => .other name

/-- The name of a class. -/
def name : ValueKind → String
  | .object => "object"
  | .string => "string"
  | .array => "array"
  | .map => "map"
  | .set => "set"
  | .global => "global"
  | .lodash => "lodash"
  | .other name => name

/-- The class that is named by the external module an object was imported from. -/
def ofImport? (h : Heap) (v : Value) : Option ValueKind :=
  match h.importTag? v with
  | some tag => if tag.isExternal then some (ofName tag.modulePath) else none
  | none => none

/-- The class of a value without its shadow. -/
def of (h : Heap) (v : Value) : ValueKind :=
  match v.raw with
  | .literal (.string _) => .string
  | .literal .null => .other "null"
  | .literal l => .other l.typeName
  | .shadow .. => .object
  | .object id => match (h.get id).kind with
    | .json => .other "json"
    | .global => .global
    | .map _ => .map
    | .set _ => .set
    | .function _ => (ofImport? h v).getD (.other "function")
    | _ => (ofImport? h v).getD (ofName (Text.toLower (h.constructorName id)))

end ValueKind

/-- The two ways of tracking a composite value: as a whole, or member by member. -/
inductive Grain where
  | imprecise
  | precise
deriving DecidableEq, Repr

/-- The name of a grain. -/
def Grain.name : Grain → String
  | .imprecise => "imprecise"
  | .precise => "precise"

/-- The objects that hold values of which a policy may take care. -/
inductive Container where
  | array
  | map
  | set
deriving DecidableEq, Repr

/-- The name of a container. -/
def Container.name : Container → String
  | .array => "array"
  | .map => "map"
  | .set => "set"

/-- How operands of a class of values are wrapped and how taint spreads through them. -/
inductive Policy where
  | object (grain : Grain)
  /-- Tracks every character of a string. -/
  | string
  | container (kind : Container) (grain : Grain)
  /-- Guards the global object. -/
  | global
  /-- Lets callbacks of iteration functions see shadows. -/
  | lodash
deriving DecidableEq, Repr

namespace Policy

/-- The name of a policy. -/
def name : Policy → String
  | .object g => "object:" ++ g.name
  | .string => "string:precise"
  | .container c g => c.name ++ ":" ++ g.name
  | .global => "global"
  | .lodash => "lodash"

/-- All policies. -/
def all : List Policy :=
  [.object .imprecise, .object .precise, .string, .container .array .imprecise,
   .container .array .precise, .container .map .imprecise, .container .map .precise,
   .container .set .imprecise, .container .set .precise, .global, .lodash]

/-- The policy with a name. -/
def named? (s : String) : Option Policy := all.find? fun p => p.name == s

/-- The grain of a level of precision. -/
def grainAt : Precision → Grain
  | .precise => .precise
  | .imprecise | .default => .imprecise

/-- The policy that is registered for a class at a level of precision. -/
def registered? (kind : ValueKind) (level : Precision) : Option Policy :=
  match kind, level with
  | .array, _ => some (.container .array (grainAt level))
  | .map, _ => some (.container .map (grainAt level))
  | .set, _ => some (.container .set (grainAt level))
  | .object, _ => some (.object (grainAt level))
  | .string, .precise => some .string
  | .string, _ => some (.object .precise)
  | .global, .default => some .global
  | .lodash, .imprecise => some .lodash
  | _, _ => none

end Policy

/-- The configured precision of each class, by the name of the class. -/
structure Levels where
  byName : Table String Precision := .empty

namespace Levels

/-- The configured precision of a class. -/
def precision (levels : Levels) (kind : ValueKind) : Precision :=
  (levels.byName.get? kind.name).getD .default

/-- The levels with the precision of one class replaced. -/
def set (levels : Levels) (name : String) (level : Precision) : Levels :=
  ⟨levels.byName.insert name level⟩

/-- The grain that is configured for objects. -/
def objectGrain (levels : Levels) : Grain := Policy.grainAt (levels.precision .object)

/-- The policy of a class: the one registered at the configured level, else the one registered at
the default level, else the policy of objects. -/
def resolve (levels : Levels) (kind : ValueKind) : Policy :=
  ((Policy.registered? kind (levels.precision kind)).or
    (Policy.registered? kind .default)).getD (.object levels.objectGrain)

/-- The policy of a value without its shadow. -/
def policyFor (levels : Levels) (h : Heap) (v : Value) : Policy := levels.resolve (.of h v)

end Levels

end ShadowTaint
