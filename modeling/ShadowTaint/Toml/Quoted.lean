import ShadowTaint.Text.Natural
/-!
# TOML strings

A string stands in double quotes, with escapes, or in single quotes, where every character stands
for itself. With three quotes on each side it may go over several lines; a line break right behind
the opening quotes does not count, and up to two quotes may stand right in front of the closing
ones. A backslash at the end of a line takes away the line break and all blanks and line breaks
behind it.

## Main definitions

- `Toml.readQuoted`: a string on one line.
- `Toml.readString`: a string in any of the four forms.
-/

namespace ShadowTaint.Toml

/-- Whether a character is a blank. -/
def isBlank (c : Char) : Bool := c = ' ' || c = '\t'

/-- Whether a character may stand in strings and comments as it is. -/
def isTextChar (c : Char) : Bool := c = '\t' || (32 ≤ c.toNat && c.toNat != 127)

/-- The text behind a line break that has to stand at its start. -/
def afterNewline? : List Char → Option (List Char)
  | '\n' :: rest => some rest
  | '\r' :: '\n' :: rest => some rest
  | _ => none

/-- The character that an escape of one letter stands for. -/
def escaped? : Char → Option Char
  | '"' => some '"'
  | '\\' => some '\\'
  | 'b' => some '\x08'
  | 'f' => some '\x0c'
  | 'n' => some '\n'
  | 'r' => some '\r'
  | 't' => some '\t'
  | _ => none

/-- The character with a number in hexadecimal digits. -/
def charOf? (digits : List Char) : Option Char :=
  (Text.readBase? 16 digits).bind fun n => if n.isValidChar then some (Char.ofNat n) else none

/-- Puts a character in front of what was read. -/
def keep (c : Char) (p : List Char × List Char) : List Char × List Char := (c :: p.1, p.2)

/-- Reads a string up to its closing double quote. -/
def readBasic : List Char → Option (List Char × List Char)
  | [] => none
  | '"' :: rest => some ([], rest)
  | '\\' :: 'u' :: a :: b :: c :: d :: rest =>
    (charOf? [a, b, c, d]).bind fun x => (readBasic rest).map (keep x)
  | '\\' :: 'U' :: a :: b :: c :: d :: e :: f :: g :: h :: rest =>
    (charOf? [a, b, c, d, e, f, g, h]).bind fun x => (readBasic rest).map (keep x)
  | '\\' :: c :: rest => (escaped? c).bind fun x => (readBasic rest).map (keep x)
  | c :: rest => if isTextChar c && c != '\\' then (readBasic rest).map (keep c) else none

/-- Reads a string up to its closing single quote. -/
def readLiteral : List Char → Option (List Char × List Char)
  | [] => none
  | '\'' :: rest => some ([], rest)
  | c :: rest => if isTextChar c then (readLiteral rest).map (keep c) else none

/-- Reads a string of several lines up to its closing double quotes. While `folding`, blanks and
line breaks do not count. -/
def readBasicLines (folding : Bool) : List Char → Option (List Char × List Char)
  | [] => none
  | '"' :: '"' :: '"' :: '"' :: '"' :: rest => some (['"', '"'], rest)
  | '"' :: '"' :: '"' :: '"' :: rest => some (['"'], rest)
  | '"' :: '"' :: '"' :: rest => some ([], rest)
  | '\\' :: 'u' :: a :: b :: c :: d :: rest =>
    (charOf? [a, b, c, d]).bind fun x => (readBasicLines false rest).map (keep x)
  | '\\' :: 'U' :: a :: b :: c :: d :: e :: f :: g :: h :: rest =>
    (charOf? [a, b, c, d, e, f, g, h]).bind fun x => (readBasicLines false rest).map (keep x)
  | '\\' :: c :: rest =>
    if (afterNewline? ((c :: rest).dropWhile isBlank)).isSome then
      readBasicLines true rest
    else (escaped? c).bind fun x => (readBasicLines false rest).map (keep x)
  | '\r' :: '\n' :: rest =>
    if folding then readBasicLines true rest else (readBasicLines false rest).map (keep '\n')
  | c :: rest =>
    if folding && (isBlank c || c = '\n') then readBasicLines true rest
    else if (isTextChar c && c != '\\') || c = '\n' then
      (readBasicLines false rest).map (keep c)
    else none

/-- Reads a string of several lines up to its closing single quotes. -/
def readLiteralLines : List Char → Option (List Char × List Char)
  | [] => none
  | '\'' :: '\'' :: '\'' :: '\'' :: '\'' :: rest => some (['\'', '\''], rest)
  | '\'' :: '\'' :: '\'' :: '\'' :: rest => some (['\''], rest)
  | '\'' :: '\'' :: '\'' :: rest => some ([], rest)
  | '\r' :: '\n' :: rest => (readLiteralLines rest).map (keep '\n')
  | c :: rest =>
    if isTextChar c || c = '\n' then (readLiteralLines rest).map (keep c) else none

/-- The text without a line break at its start. -/
def dropNewline (s : List Char) : List Char := (afterNewline? s).getD s

/-- Reads a string on one line. -/
def readQuoted : List Char → Option (String × List Char)
  | '"' :: rest => (readBasic rest).map fun p => (String.ofList p.1, p.2)
  | '\'' :: rest => (readLiteral rest).map fun p => (String.ofList p.1, p.2)
  | _ => none

/-- Reads a string. -/
def readString : List Char → Option (String × List Char)
  | '"' :: '"' :: '"' :: rest =>
    (readBasicLines false (dropNewline rest)).map fun p => (String.ofList p.1, p.2)
  | '\'' :: '\'' :: '\'' :: rest =>
    (readLiteralLines (dropNewline rest)).map fun p => (String.ofList p.1, p.2)
  | s => readQuoted s

end ShadowTaint.Toml
