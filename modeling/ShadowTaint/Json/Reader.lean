import ShadowTaint.Json.Basic
import ShadowTaint.Text.Natural
/-!
# Reading JSON

A document is read from the left: blanks, a value, blanks, and nothing after them. A string is read
in two steps. First it is cut into characters and the 16-bit units that `\u` escapes stand for; then
two units in a row that are the halves of a surrogate pair become one character. A string with a
half that has no partner is still a string of the document, but no text.

## Main definitions

- `Json.read?`: the value that a text stands for.

## Design notes

The readers of values, items and members call each other. Each call passes on less fuel than it
got, and every two calls take a character off the text, so that `2 * length + 2` is enough for
every text.
-/

namespace ShadowTaint.Json

/-- Whether a character may stand around the parts of a document. -/
def isBlank (c : Char) : Bool := c = ' ' || c = '\n' || c = '\t' || c = '\r'

/-- The text without the blanks in front. -/
def skipBlanks (s : List Char) : List Char := s.dropWhile isBlank

/-! ## Strings -/

/-- A piece of a string: a character, or a 16-bit unit that was written as an escape. -/
inductive StringPiece where
  | char (c : Char)
  | unit (n : Nat)
deriving DecidableEq, Repr

/-- The unit that four hexadecimal digits stand for. -/
def unitOf? (a b c d : Char) : Option Nat := Text.readBase? 16 [a, b, c, d]

/-- The character that an escape of one letter stands for. -/
def escaped? : Char → Option Char
  | '"' => some '"'
  | '\\' => some '\\'
  | '/' => some '/'
  | 'b' => some '\x08'
  | 'f' => some '\x0c'
  | 'n' => some '\n'
  | 'r' => some '\r'
  | 't' => some '\t'
  | _ => none

/-- Reads a string up to its closing quote. Control characters have to be escaped. -/
def readPieces : List Char → Option (List StringPiece × List Char)
  | [] => none
  | '"' :: rest => some ([], rest)
  | '\\' :: 'u' :: a :: b :: c :: d :: rest => do
    let n ← unitOf? a b c d
    let (pieces, rest) ← readPieces rest
    return (.unit n :: pieces, rest)
  | '\\' :: c :: rest => do
    let c ← escaped? c
    let (pieces, rest) ← readPieces rest
    return (.char c :: pieces, rest)
  | c :: rest =>
    if c.toNat < 32 || c = '\\' then none
    else do
      let (pieces, rest) ← readPieces rest
      return (.char c :: pieces, rest)

/-- Whether a unit is the first half of a surrogate pair. -/
def isHighUnit (n : Nat) : Bool := 0xd800 ≤ n && n < 0xdc00

/-- Whether a unit is the second half of a surrogate pair. -/
def isLowUnit (n : Nat) : Bool := 0xdc00 ≤ n && n < 0xe000

/-- The character of a surrogate pair. -/
def pairChar (high low : Nat) : Char :=
  Char.ofNat (0x10000 + (high - 0xd800) * 0x400 + (low - 0xdc00))

/-- The text that the pieces of a string make up, if every half of a surrogate pair has its
partner. -/
def textOf? : List StringPiece → Option (List Char)
  | [] => some []
  | .char c :: rest => (textOf? rest).map (c :: ·)
  | .unit high :: .unit low :: rest =>
    if isHighUnit high then
      if isLowUnit low then (textOf? rest).map (pairChar high low :: ·) else none
    else if isLowUnit high then none
    else (textOf? (.unit low :: rest)).map (Char.ofNat high :: ·)
  | .unit n :: rest =>
    if isHighUnit n || isLowUnit n then none else (textOf? rest).map (Char.ofNat n :: ·)

/-- Reads a string whose opening quote has been read. -/
def readString (s : List Char) : Option (Option String × List Char) :=
  (readPieces s).map fun p => ((textOf? p.1).map String.ofList, p.2)

/-! ## Numbers -/

/-- Whether a character is a decimal digit. -/
def isDigit (c : Char) : Bool := '0' ≤ c && c ≤ '9'

/-- The digits in front of a text, of which there has to be one. -/
def readDigits (s : List Char) : Option (List Char × List Char) :=
  match s.takeWhile isDigit with
  | [] => none
  | digits => some (digits, s.dropWhile isDigit)

/-- The whole part of a number: a zero, or digits that do not begin with one. -/
def readWhole : List Char → Option (List Char × List Char)
  | '0' :: rest => some (['0'], rest)
  | s => readDigits s

/-- The fraction of a number, if it has one. -/
def readFraction : List Char → Option (List Char × List Char)
  | '.' :: rest => (readDigits rest).map fun p => ('.' :: p.1, p.2)
  | s => some ([], s)

/-- The sign in front of a text, if there is one. -/
def takeSign : List Char → List Char × List Char
  | '+' :: rest => (['+'], rest)
  | '-' :: rest => (['-'], rest)
  | s => ([], s)

/-- The exponent of a number, if it has one. -/
def readExponent : List Char → Option (List Char × List Char)
  | [] => some ([], [])
  | c :: rest =>
    if c = 'e' || c = 'E' then
      let (sign, rest) := takeSign rest
      (readDigits rest).map fun p => (c :: sign ++ p.1, p.2)
    else some ([], c :: rest)

/-- Reads a number. Returns its spelling. -/
def readNumber (s : List Char) : Option (List Char × List Char) := do
  let (sign, s) := match s with
    | '-' :: rest => (['-'], rest)
    | s => ([], s)
  let (whole, s) ← readWhole s
  let (fraction, s) ← readFraction s
  let (exponent, s) ← readExponent s
  return (sign ++ whole ++ fraction ++ exponent, s)

/-! ## Values -/

mutual

/-- Reads a value and the blanks in front of it. -/
def readValue : Nat → List Char → Option (Json (Option String) × List Char)
  | 0, _ => none
  | fuel + 1, s => match skipBlanks s with
    | 'n' :: 'u' :: 'l' :: 'l' :: rest => some (.null, rest)
    | 't' :: 'r' :: 'u' :: 'e' :: rest => some (.bool true, rest)
    | 'f' :: 'a' :: 'l' :: 's' :: 'e' :: rest => some (.bool false, rest)
    | '"' :: rest => (readString rest).map fun p => (.string p.1, p.2)
    | '[' :: rest => match skipBlanks rest with
      | ']' :: rest => some (.array [], rest)
      | _ => (readItems fuel rest).map fun p => (.array p.1, p.2)
    | '\x7b' :: rest => match skipBlanks rest with
      | '\x7d' :: rest => some (.object [], rest)
      | _ => (readMembers fuel rest).map fun p => (.object p.1, p.2)
    | s => (readNumber s).map fun p => (.number (String.ofList p.1), p.2)

/-- Reads the items of an array up to its closing bracket; there is at least one. -/
def readItems : Nat → List Char → Option (List (Json (Option String)) × List Char)
  | 0, _ => none
  | fuel + 1, s => match readValue fuel s with
    | none => none
    | some (item, s) => match skipBlanks s with
      | ']' :: rest => some ([item], rest)
      | ',' :: rest => (readItems fuel rest).map fun p => (item :: p.1, p.2)
      | _ => none

/-- Reads the members of an object up to its closing brace; there is at least one. -/
def readMembers :
    Nat → List Char → Option (List (Option String × Json (Option String)) × List Char)
  | 0, _ => none
  | fuel + 1, s => match skipBlanks s with
    | '"' :: rest => match readString rest with
      | none => none
      | some (key, s) => match skipBlanks s with
        | ':' :: rest => match readValue fuel rest with
          | none => none
          | some (v, s) => match skipBlanks s with
            | '\x7d' :: rest => some ([(key, v)], rest)
            | ',' :: rest => (readMembers fuel rest).map fun p => ((key, v) :: p.1, p.2)
            | _ => none
        | _ => none
    | _ => none

end

/-- The value that a text stands for. Strings that are no texts are `none`. -/
def read? (s : String) : Option (Json (Option String)) :=
  let s := s.toList
  (readValue (2 * s.length + 2) s).bind fun p =>
    if (skipBlanks p.2).isEmpty then some p.1 else none

end ShadowTaint.Json
