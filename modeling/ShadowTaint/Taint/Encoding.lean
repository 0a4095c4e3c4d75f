/-!
# Taint written into code points

A string with one taint bit per character is written as a plain string: untainted characters move
into plane 15 and tainted ones into plane 16. Functions that only copy characters carry the planes
along, and characters that they insert stay in the basic plane and read as untainted. Characters
outside the basic plane cannot be written this way.

## Main definitions

- `Encoding.encode`, `Encoding.decode`: writing and reading.
-/

namespace ShadowTaint.Encoding

/-- How many code points a plane has. -/
def planeSize : Nat := 0x10000

/-- The first code point of the plane for untainted characters. -/
def untaintedPlane : Nat := 0xF0000

/-- The first code point of the plane for tainted characters. -/
def taintedPlane : Nat := 0x100000

/-- Why a string cannot be encoded. -/
inductive EncodeError where
  | lengthMismatch
  | supplementary (c : Char)
deriving DecidableEq, Repr

/-- A character of the basic plane moved into the plane of its taint. -/
def encodeChar (c : Char) (tainted : Bool) : Except EncodeError Char :=
  if planeSize ≤ c.toNat then .error (.supplementary c)
  else .ok (Char.ofNat ((if tainted then taintedPlane else untaintedPlane) + c.toNat))

/-- Moves every character into the plane of its taint. -/
def encodeChars : List Char → List Bool → Except EncodeError (List Char)
  | c :: cs, b :: bs => match encodeChar c b with
    | .error e => .error e
    | .ok d => match encodeChars cs bs with
      | .error e => .error e
      | .ok ds => .ok (d :: ds)
  | _, _ => .ok []

/-- Writes a string with one taint bit per character. -/
def encode (s : List Char) (bits : List Bool) : Except EncodeError (List Char) :=
  if s.length = bits.length then encodeChars s bits else .error .lengthMismatch

/-- The character with a code point, and the replacement character for surrogates. -/
def charOrReplacement (n : Nat) : Char :=
  if n.isValidChar then Char.ofNat n else Char.ofNat 0xFFFD

/-- The character and the taint that an encoded character stands for. -/
def decodeChar (c : Char) : Char × Bool :=
  if taintedPlane ≤ c.toNat then (charOrReplacement (c.toNat - taintedPlane), true)
  else if untaintedPlane ≤ c.toNat then (charOrReplacement (c.toNat - untaintedPlane), false)
  else (c, false)

/-- Splits an encoded string into its characters and their taint. -/
def decode (s : List Char) : List Char × List Bool := (s.map decodeChar).unzip

@[simp] theorem decode_append (s t : List Char) :
    decode (s ++ t) = ((decode s).1 ++ (decode t).1, (decode s).2 ++ (decode t).2) := by
  simp [decode, List.unzip_eq_map]

end ShadowTaint.Encoding
