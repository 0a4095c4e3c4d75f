/-!
# Double-precision numbers as exact values

A double is read off its bits: not a number, an infinity, or a sign with an exact magnitude
`mantissa * 2 ^ exponent`. Rounding toward zero and saturation are then arithmetic on whole
numbers.
-/

namespace ShadowTaint.Decimal

/-- What a double stands for. -/
inductive Binary64 where
  | nan
  | infinite (negative : Bool)
  | finite (negative : Bool) (mantissa : Nat) (exponent : Int)
deriving Repr, DecidableEq

namespace Binary64

/-- Reads the three fields of a double: sign, exponent and fraction. -/
def ofFloat (x : Float) : Binary64 :=
  let bits := x.toBits.toNat
  let negative := decide (Nat.pow 2 63 ≤ bits)
  let field := bits / Nat.pow 2 52 % Nat.pow 2 11
  let fraction := bits % Nat.pow 2 52
  if field = Nat.pow 2 11 - 1 then
    if fraction = 0 then .infinite negative else .nan
  else if field = 0 then .finite negative fraction (-1074)
  else .finite negative (Nat.pow 2 52 + fraction) (Int.ofNat field - 1075)

/-- The magnitude of `mantissa * 2 ^ exponent` as a fraction of whole numbers. -/
def ratio (mantissa : Nat) (exponent : Int) : Nat × Nat :=
  match exponent with
  | .ofNat e => (mantissa * Nat.pow 2 e, 1)
  | .negSucc e => (mantissa, Nat.pow 2 (e + 1))

/-- The whole part of a finite value, rounded toward zero. -/
def truncated (negative : Bool) (mantissa : Nat) (exponent : Int) : Int :=
  let (num, den) := ratio mantissa exponent
  let whole := Int.ofNat (num / den)
  if negative then -whole else whole

/-- Whether a finite value has no fractional part. -/
def isWhole (mantissa : Nat) (exponent : Int) : Bool :=
  let (num, den) := ratio mantissa exponent
  decide (num % den = 0)

end Binary64

/-- The whole number that lies nearest to `n` between the bounds. -/
def saturate (low high n : Int) : Int := if n < low then low else if high < n then high else n

/-- The least 64-bit signed number. -/
def minInt64 : Int := -Int.ofNat (Nat.pow 2 63)

/-- The greatest 64-bit signed number. -/
def maxInt64 : Int := Int.ofNat (Nat.pow 2 63) - 1

/-- A number rounded toward zero and saturated to 64 signed bits; not-a-number gives zero. -/
def toInt64 (x : Float) : Int :=
  match Binary64.ofFloat x with
  | .nan => 0
  | .infinite true => minInt64
  | .infinite false => maxInt64
  | .finite s m e => saturate minInt64 maxInt64 (Binary64.truncated s m e)

/-- A number rounded toward zero and saturated to 64 unsigned bits; not-a-number gives zero. -/
def toIndex (x : Float) : Nat :=
  match Binary64.ofFloat x with
  | .nan => 0
  | .infinite true => 0
  | .infinite false => Nat.pow 2 64 - 1
  | .finite s m e => (saturate 0 (Int.ofNat (Nat.pow 2 64) - 1) (Binary64.truncated s m e)).toNat

/-- The double with a whole value below `2 ^ 53`, and the nearest double above that. -/
def ofNat (n : Nat) : Float := Float.ofNat n

end ShadowTaint.Decimal
