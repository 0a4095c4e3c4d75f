import ShadowTaint.Decimal.Read
import ShadowTaint.Toml.Basic
/-!
# TOML values of a single word

Truth values, numbers, dates and times are written as a word without blanks and without quotes, but
for the blank that may stand between a date and a time. The longest such word is taken from the
text and then recognised as a whole.

## Main definitions

- `Toml.scalar?`: the value that a word stands for.
- `Toml.readScalar`: a value of a single word at the start of a text.
-/

namespace ShadowTaint.Toml

/-! ## Numbers -/

/-- Whether a character is a decimal digit. -/
def isDigit (c : Char) : Bool := '0' ≤ c && c ≤ '9'

/-- Whether a word is made of digits, with single underscores between them. -/
def isDigitRun (digit : Char → Bool) : List Char → Bool
  | [] => false
  | [c] => digit c
  | c :: '_' :: rest => digit c && isDigitRun digit rest
  | c :: rest => digit c && isDigitRun digit rest

/-- Whether a word is a decimal whole number without a sign; it begins with a zero only if it is
one digit. -/
def isWhole (cs : List Char) : Bool :=
  isDigitRun isDigit cs && (cs.head? != some '0' || cs.length = 1)

/-- A word without underscores. -/
def withoutUnderscores (cs : List Char) : List Char := cs.filter (· != '_')

/-- A whole number in a base, whose digits may have underscores between them. -/
def based? (base : Nat) (cs : List Char) : Option Nat :=
  if isDigitRun (fun c => (Text.hexValue? c).any (· < base)) cs then
    Text.readBase? base (withoutUnderscores cs)
  else none

/-- An integer, if it is in the range of 64-bit numbers. -/
def integer? (n : Int) : Option Toml :=
  if -Int.ofNat (Nat.pow 2 63) ≤ n ∧ n < Int.ofNat (Nat.pow 2 63) then some (.integer n) else none

/-- The integer that a word stands for. -/
def integerOf? : List Char → Option Toml
  | '0' :: 'x' :: rest => (based? 16 rest).bind fun n => integer? n
  | '0' :: 'o' :: rest => (based? 8 rest).bind fun n => integer? n
  | '0' :: 'b' :: rest => (based? 2 rest).bind fun n => integer? n
  | cs =>
    let (negative, digits) := Decimal.readSign cs
    if isWhole digits then
      (based? 10 digits).bind fun n => integer? (if negative then -Int.ofNat n else Int.ofNat n)
    else none

/-- Whether a word is an exponent: nothing, or `e` with a whole number behind it, which may have a
sign and begin with zeros. -/
def isExponent : List Char → Bool
  | [] => true
  | c :: rest => (c = 'e' || c = 'E') && isDigitRun isDigit (Decimal.readSign rest).2

/-- Whether a word is a decimal with a fraction, an exponent or both, without a sign. -/
def isDecimal (cs : List Char) : Bool :=
  let isPart := fun (c : Char) => isDigit c || c = '_'
  let (whole, rest) := cs.span isPart
  isWhole whole && match rest with
    | [] => false
    | '.' :: rest =>
      let (fraction, exponent) := rest.span isPart
      isDigitRun isDigit fraction && isExponent exponent
    | exponent => isExponent exponent

/-- The float that a word stands for. One that is too large is refused, unless it is negative. -/
def floatOf? (cs : List Char) : Option Toml :=
  let (negative, magnitude) := Decimal.readSign cs
  if magnitude = ['i', 'n', 'f'] || magnitude = ['n', 'a', 'n'] then
    some (.float (String.ofList cs))
  else if isDecimal magnitude &&
      (negative || (Decimal.read? (withoutUnderscores magnitude)).any (·.isFinite)) then
    some (.float (String.ofList cs))
  else none

/-! ## Dates and times -/

/-- A number of two digits between two bounds, and the rest. -/
def twoDigits? (low high : Nat) : List Char → Option (Nat × List Char)
  | a :: b :: rest => do
    let n := 10 * (← Text.digitValue? a) + (← Text.digitValue? b)
    if low ≤ n ∧ n ≤ high then some (n, rest) else none
  | _ => none

/-- How many days a month has. -/
def daysIn (year month : Nat) : Nat :=
  if month = 2 then
    if year % 4 = 0 && (year % 100 != 0 || year % 400 = 0) then 29 else 28
  else if month = 4 || month = 6 || month = 9 || month = 11 then 30
  else 31

/-- The text behind a character that has to stand at its start. -/
def after? (c : Char) : List Char → Option (List Char)
  | d :: rest => if d = c then some rest else none
  | [] => none

/-- The text behind a date. -/
def afterDate? : List Char → Option (List Char)
  | a :: b :: c :: d :: rest => do
    let (high, _) ← twoDigits? 0 99 [a, b]
    let (low, _) ← twoDigits? 0 99 [c, d]
    let (month, rest) ← twoDigits? 1 12 (← after? '-' rest)
    let (_, rest) ← twoDigits? 1 (daysIn (100 * high + low) month) (← after? '-' rest)
    return rest
  | _ => none

/-- The text behind the time of a day. A minute may have sixty-one seconds. -/
def afterTime? (cs : List Char) : Option (List Char) := do
  let (_, rest) ← twoDigits? 0 23 cs
  let (_, rest) ← twoDigits? 0 59 (← after? ':' rest)
  let (_, rest) ← twoDigits? 0 60 (← after? ':' rest)
  match rest with
  | '.' :: fraction =>
    if (fraction.takeWhile isDigit).isEmpty then none else some (fraction.dropWhile isDigit)
  | rest => some rest

/-- Whether a text is a distance from universal time, or empty. -/
def isOffset : List Char → Bool
  | [] => true
  | ['Z'] => true
  | ['z'] => true
  | c :: rest =>
    (c = '+' || c = '-') &&
      ((twoDigits? 0 23 rest).bind fun p => (after? ':' p.2).bind (twoDigits? 0 59)).any
        fun p => p.2.isEmpty

/-- Whether a text is the time of a day, with or without a distance from universal time. -/
def isTimeWithOffset (cs : List Char) : Bool := (afterTime? cs).any isOffset

/-- The date, the time or both that a word stands for. -/
def momentOf? (cs : List Char) : Option Toml :=
  let isMoment : Bool := match afterDate? cs with
    | none => (afterTime? cs).any (·.isEmpty)
    | some [] => true
    | some (c :: rest) => (c = 'T' || c = 't') && isTimeWithOffset rest
  if isMoment then some (.moment (String.ofList cs)) else none

/-! ## Words -/

/-- The value that a word stands for. -/
def scalar? (cs : List Char) : Option Toml :=
  if cs = "true".toList then some (.boolean true)
  else if cs = "false".toList then some (.boolean false)
  else (momentOf? cs).or ((floatOf? cs).or (integerOf? cs))

/-- Whether a character can be part of a word. -/
def isWordChar (c : Char) : Bool :=
  isDigit c || ('a' ≤ c && c ≤ 'z') || ('A' ≤ c && c ≤ 'Z') || c = '_' || c = '+' || c = '-' ||
    c = '.' || c = ':'

/-- Reads a value of a single word. A date and a time may have a blank between them. -/
def readScalar (s : List Char) : Option (Toml × List Char) :=
  let (word, rest) := s.span isWordChar
  let simple := (scalar? word).map fun v => (v, rest)
  match afterDate? word, rest with
  | some [], ' ' :: c :: rest =>
    if isDigit c then
      let (time, rest) := (c :: rest).span isWordChar
      if isTimeWithOffset time then
        some (.moment (String.ofList (word ++ ' ' :: time)), rest)
      else none
    else simple
  | _, _ => simple

end ShadowTaint.Toml
