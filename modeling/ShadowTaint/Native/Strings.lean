import ShadowTaint.Decimal.Read
import ShadowTaint.Heap.Text
import ShadowTaint.Native.Error
import ShadowTaint.Text.Blank
import ShadowTaint.Text.Case
import ShadowTaint.Text.Search
/-!
# The methods of strings

A string is a list of characters, and positions count characters. Arguments are coerced first: to
whole numbers by rounding toward zero and saturating, to texts by `Heap.keyText`. What remains is
copying of characters between positions.

## Main definitions

- `integerArgument`, `textArgument`: the coercions.
- `relativePosition`, `positionWithin`: positions counted from the end, and positions brought into
  the text.
- `StringMethod.run`: the result of a method.
-/

namespace ShadowTaint

/-- The number that a text spells, blanks around it put aside. -/
def spelledNumber? (s : String) : Option Float := Decimal.read? (Text.trimBlanks s.toList)

/-- A literal coerced to a whole number. -/
def Literal.toInteger : Literal → Int
  | .number n => Decimal.toInt64 n
  | .bool b => if b then 1 else 0
  | .string s => ((spelledNumber? s).map Decimal.toInt64).getD 0
  | .undefined | .null => 0

/-- An argument coerced to a whole number; `fallback` where it is missing or undefined. -/
def integerArgument (args : List Value) (i : Nat) (fallback : Int) : Int :=
  match args[i]? with
  | none => fallback
  | some v => match v.literal? with
    | none => 0
    | some .undefined => fallback
    | some l => l.toInteger

/-- An argument coerced to text, unless it is missing or undefined. -/
def textArgument? (h : Heap) (args : List Value) (i : Nat) : Option String :=
  match args[i]? with
  | none => none
  | some v => if v.isUndefined then none else some (h.keyText v)

/-- An argument coerced to text; a missing one reads as the text of undefined. -/
def textArgument (h : Heap) (args : List Value) (i : Nat) : String :=
  (textArgument? h args i).getD "undefined"

/-- A position brought between the start and the end of a text of `length` characters. -/
def positionWithin (length : Nat) (i : Int) : Nat := min i.toNat length

/-- A position that counts from the end of the text when it is negative. -/
def relativePosition (length : Nat) (i : Int) : Nat :=
  if i < 0 then positionWithin length (Int.ofNat length + i) else positionWithin length i

/-- The characters from one position up to another one. -/
def charsBetween {α : Type} (s : List α) (start stop : Nat) : List α := (s.take stop).drop start

/-- The item at a position, if the position is not negative and inside the list. -/
def itemAt? {α : Type} (s : List α) (i : Int) : Option α := if i < 0 then none else s[i.toNat]?

/-- The part of a list that `slice` copies. -/
def slicePart {α : Type} (s : List α) (args : List Value) : List α :=
  let start := relativePosition s.length (integerArgument args 0 0)
  let stop := relativePosition s.length (integerArgument args 1 s.length)
  charsBetween s start stop

/-- The part of a list that `substr` copies. -/
def substrPart {α : Type} (s : List α) (args : List Value) : List α :=
  let start := relativePosition s.length (integerArgument args 0 0)
  let count := positionWithin s.length (integerArgument args 1 s.length)
  charsBetween s start (min (start + count) s.length)

/-- The part of a list that `substring` copies: the bounds may come in any order. -/
def substringPart {α : Type} (s : List α) (args : List Value) : List α :=
  let a := positionWithin s.length (integerArgument args 0 0)
  let b := positionWithin s.length (integerArgument args 1 s.length)
  charsBetween s (min a b) (max a b)

/-- A list repeated a number of times. -/
def repeatedPart {α : Type} (s : List α) (count : Nat) : List α :=
  if s.isEmpty then [] else (List.replicate count s).flatten

/-- The pieces that `split` makes: the whole text without a separator, single characters for an
empty one. -/
def splitPieces (s : List Char) (separator : Option String) : List (List Char) :=
  match separator with
  | none => [s]
  | some sep => match sep.toList with
    | [] => s.map fun c => [c]
    | c :: rest => Text.splitAt c rest s

/-- How many pieces `split` keeps at most; `none` stands for all of them. -/
def splitLimit (args : List Value) : Option Nat :=
  match args[1]? with
  | none => none
  | some v => if v.isUndefined then none else some (integerArgument args 1 0).toNat

/-- What a string method returns: a literal, or the texts that become a new array. -/
inductive StringResult where
  | literal (l : Literal)
  | texts (pieces : List (List Char))

/-- A text as a result. -/
def StringResult.ofChars (cs : List Char) : StringResult := .literal (.string (String.ofList cs))

/-- Runs a string method on the characters of its receiver. -/
def StringMethod.run (h : Heap) (s : List Char) (args : List Value) :
    StringMethod → Except NativeError StringResult
  | .blink => .ok (.ofChars ("<blink>".toList ++ s ++ "</blink>".toList))
  | .charAt => .ok (.ofChars (itemAt? s (integerArgument args 0 0)).toList)
  | .charCodeAt => .ok <| .literal <| .number <|
      match itemAt? s (integerArgument args 0 0) with
      | some c => Decimal.ofNat c.toNat
      | none => 0.0 / 0.0
  | .codePointAt => .ok <| .literal <|
      match itemAt? s (integerArgument args 0 0) with
      | some c => .number (Decimal.ofNat c.toNat)
      | none => .undefined
  | .concat => .ok (.ofChars (s ++ args.flatMap fun v => (h.keyText v).toList))
  | .indexOf => .ok <| .literal <| .number <|
      match Text.indexOf? (textArgument h args 0).toList s with
      | some i => Decimal.ofNat i
      | none => -1.0
  | .repeated =>
      let count := integerArgument args 0 0
      if count < 0 then .error (.invalidCount count)
      else .ok (.ofChars (repeatedPart s count.toNat))
  | .replace => .ok <| .ofChars <|
      Text.replaceFirst (textArgument h args 0).toList (textArgument h args 1).toList s
  | .slice => .ok (.ofChars (slicePart s args))
  | .split =>
      let pieces := splitPieces s (textArgument? h args 0)
      .ok <| .texts <| match splitLimit args with
        | none => pieces
        | some n => pieces.take n
  | .substr => .ok (.ofChars (substrPart s args))
  | .substring => .ok (.ofChars (substringPart s args))
  | .toLowerCase => .ok (.literal (.string (Text.toLower (String.ofList s))))
  | .toUpperCase => .ok (.literal (.string (Text.toUpper (String.ofList s))))
  | .trim => .ok (.ofChars (Text.trimBlanks s))

end ShadowTaint
