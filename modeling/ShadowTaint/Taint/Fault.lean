import ShadowTaint.Taint.Encoding
/-!
# Faults of character taint

Why the taint of single characters could not be read or written, as causes with their texts.
-/

namespace ShadowTaint

/-- Why the taint of characters could not be read or written. -/
inductive CharFault where
  | encode (e : Encoding.EncodeError)
  /-- The map has no such key. -/
  | unknownKey (key : String)
  /-- The entry has no map. -/
  | noMap
  /-- The value, described here, has no map. -/
  | noMapFor (value : String)
  /-- The value, coerced to a key here, is no string. -/
  | notString (key : String)
deriving DecidableEq, Repr

/-- A whole number in hexadecimal with capital letters. -/
def upperHex (n : Nat) : String := (String.ofList (Nat.toDigits 16 n)).map Char.toUpper

/-- What a fault of character taint says. -/
def CharFault.message : CharFault → String
  | .encode .lengthMismatch => "Taint map and string length must match"
  | .encode (.supplementary c) => s!"Cannot encode supplementary character U+{upperHex c.toNat}"
  | .unknownKey key => s!"PropMap does not have property: {key}"
  | .noMap => "taintEntry does not have a map"
  | .noMapFor value => s!"TaintEntry does not have a PropMap; object: {value}"
  | .notString key => s!"Tried to set property taint on non-string: {key}"

end ShadowTaint
