import ShadowTaint.Provenance.Node
import ShadowTaint.Taint.CharMap
import ShadowTaint.Taint.Fault
/-!
# Taint entries

What is recorded about a tracked value: a bit for the value as a whole, a character map when it is
a string, and the history of the value.
-/

namespace ShadowTaint

/-- The taint of a value. -/
structure TaintEntry where
  bit : Bool
  chars : Option CharMap
  path : Provenance.Node

namespace TaintEntry

/-- Whether the entry records any taint: the bit, or something in the map. -/
def isTainted (e : TaintEntry) : Bool := e.bit || e.chars.any CharMap.any

/-- The taint of one property: the bit, or what the map says about the key. -/
def propertyTaint (e : TaintEntry) (key : String) : Bool :=
  e.bit || (e.chars.bind (·.get? key)).getD false

/-- The entry with the taint under one key of its map replaced. -/
def setPropertyTaint (e : TaintEntry) (key : String) (tainted : Bool) :
    Except CharFault TaintEntry :=
  match e.chars with
  | none => .error .noMap
  | some map => match map.set? key tainted with
    | none => .error (.unknownKey key)
    | some map => .ok { e with chars := some map }

/-- The taint of the first `count` characters, where the bit stands for a missing map. -/
def charBits (e : TaintEntry) (count : Nat) : List Bool :=
  (List.range count).map fun i => e.bit || e.chars.any (·.charAt i)

end TaintEntry

end ShadowTaint
