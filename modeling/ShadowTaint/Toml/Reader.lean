import ShadowTaint.Toml.Quoted
import ShadowTaint.Toml.Scalar
/-!
# Reading TOML

A document is read line by line: a header, a key with its value, or nothing, each with a comment
behind it or not. Arrays may go over several lines.

## Main definitions

- `Toml.read?`: the document that a text stands for.

## Design notes

The readers of values, items and pairs call each other. Each call passes on less fuel than it got,
and every two calls take a character off the text. How deep values may be nested is limited
separately, by `room`.
-/

namespace ShadowTaint.Toml

/-! ## Layout -/

/-- The text without the blanks in front. -/
def skipBlanks (s : List Char) : List Char := s.dropWhile isBlank

/-- The text behind the end of a line, in front of which blanks and a comment may stand. -/
def afterLine? (s : List Char) : Option (List Char) :=
  let s := match skipBlanks s with
    | '#' :: rest => rest.dropWhile isTextChar
    | s => s
  if s.isEmpty then some [] else afterNewline? s

/-- The text without the blanks, line breaks and comments in front. -/
def skipLayout (inComment : Bool) : List Char → List Char
  | [] => []
  | '\n' :: rest => skipLayout false rest
  | '\r' :: '\n' :: rest => skipLayout false rest
  | c :: rest =>
    if inComment then if isTextChar c then skipLayout true rest else c :: rest
    else if isBlank c then skipLayout false rest
    else if c = '#' then skipLayout true rest
    else c :: rest

/-! ## Keys -/

/-- Whether a character can be part of a key without quotes. -/
def isKeyChar (c : Char) : Bool :=
  isDigit c || ('a' ≤ c && c ≤ 'z') || ('A' ≤ c && c ≤ 'Z') || c = '_' || c = '-'

/-- Reads a key without dots. -/
def readName (s : List Char) : Option (String × List Char) :=
  match s.takeWhile isKeyChar with
  | [] => readQuoted s
  | name => some (String.ofList name, s.dropWhile isKeyChar)

/-- Reads a dotted key of at most as many names as there is room for, and the blanks around it. -/
def readKey : Nat → List Char → Option (List String × List Char)
  | 0, _ => none
  | room + 1, s => match readName (skipBlanks s) with
    | none => none
    | some (name, s) => match skipBlanks s with
      | '.' :: rest => (readKey room rest).map fun p => (name :: p.1, p.2)
      | rest => some ([name], rest)

/-- The most names that a dotted key may have, and how deep values may be nested. -/
def maxDepth : Nat := depthBound - 1

/-- A key as the names in front of its last one and the last one. -/
def splitLast? (names : List String) : Option (List String × String) :=
  names.getLast?.map fun last => (names.dropLast, last)

/-- Reads a key, the equals sign behind it and the blanks around them. -/
def readKeyEquals (s : List Char) : Option ((List String × String) × List Char) := do
  let (names, s) ← readKey maxDepth s
  let key ← splitLast? names
  let s ← after? '=' s
  return (key, skipBlanks s)

/-! ## Values -/

mutual

/-- Reads a value. -/
def readValue : Nat → Nat → List Char → Option (Toml × List Char)
  | 0, _, _ => none
  | fuel + 1, room, s => match s, room with
    | '[' :: _, 0 => none
    | '\x7b' :: _, 0 => none
    | '[' :: rest, room + 1 => (readItems fuel room rest).map fun p => (.array p.1, p.2)
    | '\x7b' :: rest, room + 1 => match skipBlanks rest with
      | '\x7d' :: rest => some (.table .inline [], rest)
      | _ => (readPairs fuel room [] rest).map fun p => (.table .inline p.1, p.2)
    | '"' :: _, _ => (readString s).map fun p => (.string p.1, p.2)
    | '\'' :: _, _ => (readString s).map fun p => (.string p.1, p.2)
    | _, _ => readScalar s

/-- Reads the items of an array up to its closing bracket. A comma may stand behind the last
one. -/
def readItems : Nat → Nat → List Char → Option (List Toml × List Char)
  | 0, _, _ => none
  | fuel + 1, room, s => match skipLayout false s with
    | ']' :: rest => some ([], rest)
    | s => match readValue fuel room s with
      | none => none
      | some (item, s) => match skipLayout false s with
        | ']' :: rest => some ([item], rest)
        | ',' :: rest => (readItems fuel room rest).map fun p => (item :: p.1, p.2)
        | _ => none

/-- Reads the pairs of a table in braces up to its closing brace, of which there is at least one,
and adds them to `ms`. -/
def readPairs : Nat → Nat → Members → List Char → Option (Members × List Char)
  | 0, _, _, _ => none
  | fuel + 1, room, ms, s => match readKeyEquals s with
    | none => none
    | some ((path, key), s) => match readValue fuel room s with
      | none => none
      | some (v, s) => match putDotted? path key v ms with
        | none => none
        | some ms => match skipBlanks s with
          | '\x7d' :: rest => some (ms, rest)
          | ',' :: rest => readPairs fuel room ms rest
          | _ => none

end

/-! ## Documents -/

/-- What was read of a document: its members, and the name of the table whose header came last. -/
structure Draft where
  members : Members := []
  current : List String := []

/-- A line with a key and its value, and the text behind it. -/
def readAssignment (d : Draft) (s : List Char) : Option (Draft × List Char) := do
  let ((path, key), s) ← readKeyEquals s
  let (v, s) ← readValue (2 * s.length + 2) maxDepth s
  let s ← afterLine? s
  let members ← within? d.current (putDotted? path key v) d.members
  return ({ d with members }, s)

/-- A line with a header, and the text behind it. The opening brackets have been read. -/
def readHeader (d : Draft) (declare? : String → Members → Option Members) (closing : Nat)
    (s : List Char) : Option (Draft × List Char) := do
  let (names, s) ← readKey maxDepth s
  let (path, key) ← splitLast? names
  if s.take closing != List.replicate closing ']' then none
  else
    let s ← afterLine? (s.drop closing)
    let members ← within? path (declare? key) d.members
    return (⟨members, names⟩, s)

/-- Reads the lines of a document. -/
def readLines : Nat → Draft → List Char → Option Members
  | 0, _, _ => none
  | fuel + 1, d, s =>
    let line := match skipBlanks s with
      | '[' :: '[' :: rest => readHeader d declareElement? 2 rest
      | '[' :: rest => readHeader d declareTable? 1 rest
      | '#' :: rest => (afterLine? ('#' :: rest)).map fun s => (d, s)
      | '\n' :: rest => some (d, rest)
      | '\r' :: '\n' :: rest => some (d, rest)
      | s => readAssignment d s
    if (skipBlanks s).isEmpty then some d.members
    else match line with
      | none => none
      | some (d, s) => readLines fuel d s

/-- The document that a text stands for. A byte order mark in front does not count. -/
def read? (s : String) : Option Members :=
  let cs := match s.toList with
    | '\ufeff' :: rest => rest
    | cs => cs
  readLines (cs.length + 1) {} cs

end ShadowTaint.Toml
