import ShadowTaint.Decimal.Shortest
/-!
# The text of a number

Not-a-number and the infinities have names. A whole number below `10 ^ 21` is written as the
64-bit signed number nearest to it, everything else with the fewest digits that read back and
without an exponent.
-/

namespace ShadowTaint.Decimal

/-- From this magnitude on whole numbers are written digit by digit. -/
def wholeLimit : Nat := Nat.pow 10 21

/-- The text of a number, as it appears in property keys and concatenations. -/
def text (x : Float) : String :=
  match Binary64.ofFloat x with
  | .nan => "NaN"
  | .infinite false => "Infinity"
  | .infinite true => "-Infinity"
  | .finite negative m e =>
    let whole := Binary64.truncated negative m e
    if Binary64.isWhole m e && decide (whole.natAbs < wholeLimit) then
      toString (saturate minInt64 maxInt64 whole)
    else
      let (digits, point) := shortest m e
      String.ofList ((if negative then ['-'] else []) ++ positional digits point)

end ShadowTaint.Decimal
