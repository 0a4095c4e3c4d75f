import ShadowTaint.Decimal.Binary64
/-!
# The fewest digits that read back

Among all decimals that round to a given double, the ones with the fewest digits are looked for,
and of those the one nearest to the double is taken; a tie goes up. The search runs over the grids
of decimals with one, two, ... digits in exact arithmetic: if any point of a grid rounds to the
double, so does one of the two neighbours of the double on that grid.

## Main definitions

- `Interval`: the reals that round to a double, as a fraction with explicit half-widths.
- `shortest`: digits and the position of the decimal point.
- `positional`: the digits written out without an exponent.
-/

namespace ShadowTaint.Decimal

/-- A positive real `num / den` with the reals around it that round to the same double: those from
`(num - below) / den` to `(num + above) / den`, the ends included iff `closed`. -/
structure Interval where
  num : Nat
  den : Nat
  below : Nat
  above : Nat
  closed : Bool
deriving Repr

/-- The rounding interval of `mantissa * 2 ^ exponent`. Below a power of two the neighbour is only
half as far away, unless the exponent is already the least one. -/
def Interval.ofBinary (mantissa : Nat) (exponent : Int) : Interval :=
  let (num, den) := Binary64.ratio mantissa exponent
  let unit := (Binary64.ratio 1 exponent).1
  let narrow := decide (mantissa = Nat.pow 2 52) && decide (-1074 < exponent)
  { num := 4 * num, den := 4 * den, below := if narrow then unit else 2 * unit,
    above := 2 * unit, closed := decide (mantissa % 2 = 0) }

/-- Whether the real `p / q` rounds to the double. -/
def Interval.mem (i : Interval) (p q : Nat) : Bool :=
  if i.closed then
    decide ((i.num - i.below) * q ≤ p * i.den) && decide (p * i.den ≤ (i.num + i.above) * q)
  else
    decide ((i.num - i.below) * q < p * i.den) && decide (p * i.den < (i.num + i.above) * q)

/-- How many decimal digits a whole number has. -/
def digitCount (n : Nat) : Nat := (Nat.toDigits 10 n).length

/-- How many zeros follow the decimal point of `num / den < 1` before its first digit. -/
def leadingZeros (den : Nat) : Nat → Nat → Nat
  | 0, _ => 0
  | fuel + 1, num => if den ≤ 10 * num then 0 else 1 + leadingZeros den fuel (10 * num)

/-- The `p` with `10 ^ (p - 1) ≤ num / den < 10 ^ p`. -/
def pointPosition (num den : Nat) : Int :=
  if den ≤ num then Int.ofNat (digitCount (num / den))
  else -Int.ofNat (leadingZeros den 400 num)

/-- The neighbours of the double on the grid of `k` digits, nearer one first, filtered by whether
they round to the double. A candidate `c` stands for `c * 10 ^ (point - k)`. -/
def candidates (i : Interval) (point : Int) (k : Nat) : List Nat :=
  let shift := point - Int.ofNat k
  let (unitNum, unitDen) := match shift with
    | .ofNat e => (Nat.pow 10 e, 1)
    | .negSucc e => (1, Nat.pow 10 (e + 1))
  let top := i.num * unitDen
  let bottom := i.den * unitNum
  let floor := top / bottom
  let rest := top % bottom
  let ordered := if bottom ≤ 2 * rest then [floor + 1, floor] else [floor, floor + 1]
  ordered.filter fun c => i.mem (c * unitNum) unitDen

/-- The first grid with a candidate, searched from `k` digits on. -/
def searchGrid (i : Interval) (point : Int) : Nat → Nat → Nat × Nat
  | 0, k => (((candidates i point k).head?).getD 0, k)
  | fuel + 1, k =>
    match candidates i point k with
    | c :: _ => (c, k)
    | [] => searchGrid i point fuel (k + 1)

/-- The digits of the shortest decimal `0.d1d2... * 10 ^ point` that rounds to the double with a
positive magnitude `mantissa * 2 ^ exponent`, and its `point`. -/
def shortest (mantissa : Nat) (exponent : Int) : List Char × Int :=
  let i := Interval.ofBinary mantissa exponent
  let point := pointPosition i.num i.den
  let (c, k) := searchGrid i point 16 1
  let digits := Nat.toDigits 10 c
  let kept := (digits.reverse.dropWhile (· == '0')).reverse
  (kept, point + (Int.ofNat digits.length - Int.ofNat k))

/-- Writes digits out around the decimal point, without an exponent. -/
def positional (digits : List Char) (point : Int) : List Char :=
  match point with
  | .ofNat p =>
    if digits.length ≤ p then
      if p = 0 then ['0'] else digits ++ List.replicate (p - digits.length) '0'
    else if p = 0 then '0' :: '.' :: digits
    else digits.take p ++ '.' :: digits.drop p
  | .negSucc z => '0' :: '.' :: (List.replicate (z + 1) '0' ++ digits)

end ShadowTaint.Decimal
