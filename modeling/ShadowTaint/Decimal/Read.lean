import ShadowTaint.Text.Natural
/-!
# Reading a number

The spelling of a number: an optional sign, then `inf`, `infinity` or `nan` in any case, or digits
with at most one decimal point and at least one digit, and an optional exponent. The value is the
double nearest to the decimal.
-/

namespace ShadowTaint.Decimal

/-- A sign in front of a text, and the rest. -/
def readSign : List Char → Bool × List Char
  | '-' :: rest => (true, rest)
  | '+' :: rest => (false, rest)
  | cs => (false, cs)

/-- The digits at the start of a text, and the rest. -/
def spanDigits (cs : List Char) : List Char × List Char := cs.span fun c => '0' ≤ c && c ≤ '9'

/-- The value of a list of digits. -/
def digitsValue (cs : List Char) : Nat := (Text.readDigits? 0 cs).getD 0

/-- An exponent: nothing, or `e` with a signed whole number up to the end of the text. -/
def readExponent? : List Char → Option Int
  | [] => some 0
  | c :: rest =>
    if c = 'e' ∨ c = 'E' then
      let (negative, digits) := readSign rest
      (Text.readDecimal? digits).map fun n => if negative then -Int.ofNat n else Int.ofNat n
    else none

/-- The double nearest to `mantissa * 10 ^ exponent`. Values far outside the range of doubles are
decided by their order of magnitude. -/
def nearest (mantissa : Nat) (exponent : Int) : Float :=
  if mantissa = 0 then 0.0
  else
    let magnitude := exponent + Int.ofNat (Nat.toDigits 10 mantissa).length
    if 400 < magnitude then 1.0 / 0.0
    else if magnitude < -400 then 0.0
    else match exponent with
      | .ofNat e => Float.ofScientific mantissa false e
      | .negSucc e => Float.ofScientific mantissa true (e + 1)

/-- Reads an unsigned decimal. -/
def readUnsigned? (cs : List Char) : Option Float :=
  let (whole, rest) := spanDigits cs
  let (fraction, rest) := match rest with
    | '.' :: after => spanDigits after
    | other => ([], other)
  if whole.isEmpty && fraction.isEmpty then none
  else (readExponent? rest).map fun e =>
    nearest (digitsValue (whole ++ fraction)) (e - Int.ofNat fraction.length)

/-- Reads a number in the spelling above; nothing may stand around it. -/
def read? (cs : List Char) : Option Float :=
  let (negative, rest) := readSign cs
  let lowered := rest.map Char.toLower
  let magnitude :=
    if lowered = ['i', 'n', 'f'] ∨ lowered = ['i', 'n', 'f', 'i', 'n', 'i', 't', 'y'] then
      some (1.0 / 0.0)
    else if lowered = ['n', 'a', 'n'] then some (0.0 / 0.0)
    else readUnsigned? rest
  magnitude.map fun x => if negative then -x else x

end ShadowTaint.Decimal
