/-!
# JSON values

A JSON value whose strings are of a type of their own: `Json String` is a document that can be
written, and `Json (Option String)` is what reading yields, where a string that is no text, because
it has one half of a surrogate pair without the other, is `none`.

## Main definitions

- `Json.pretty`: the text of a document, every member on a line of its own.
-/

namespace ShadowTaint

/-- A JSON value with strings of type `τ`. -/
inductive Json (τ : Type) where
  | null
  | bool (b : Bool)
  /-- A number, by its spelling. -/
  | number (spelling : String)
  | string (s : τ)
  | array (items : List (Json τ))
  | object (members : List (τ × Json τ))

namespace Json

/-- A whole number. -/
def nat {τ : Type} (n : Nat) : Json τ := .number (toString n)

/-- One hexadecimal digit. -/
def hexDigit (n : Nat) : Char := Nat.digitChar n

/-- How a character is written inside a string. -/
def escapeChar (c : Char) : List Char :=
  if c = '"' then ['\\', '"']
  else if c = '\\' then ['\\', '\\']
  else if c = '\n' then ['\\', 'n']
  else if c = '\r' then ['\\', 'r']
  else if c = '\t' then ['\\', 't']
  else if c.toNat = 8 then ['\\', 'b']
  else if c.toNat = 12 then ['\\', 'f']
  else if c.toNat < 32 then
    ['\\', 'u', '0', '0', hexDigit (c.toNat / 16), hexDigit (c.toNat % 16)]
  else [c]

/-- A string in quotes. -/
def quote (s : String) : List Char := '"' :: s.toList.flatMap escapeChar ++ ['"']

/-- A new line and the blanks in front of a member at some depth. -/
def newLine (indent depth : Nat) : List Char := '\n' :: List.replicate (indent * depth) ' '

mutual

/-- The text of a document at some depth of nesting. -/
def prettyAt (indent : Nat) (depth : Nat) : Json String → List Char
  | .null => ['n', 'u', 'l', 'l']
  | .bool true => ['t', 'r', 'u', 'e']
  | .bool false => ['f', 'a', 'l', 's', 'e']
  | .number spelling => spelling.toList
  | .string s => quote s
  | .array [] => ['[', ']']
  | .array (item :: rest) =>
    '[' :: newLine indent (depth + 1) ++ prettyAt indent (depth + 1) item ++
      prettyItems indent (depth + 1) rest ++ newLine indent depth ++ [']']
  | .object [] => ['\x7b', '\x7d']
  | .object ((key, v) :: rest) =>
    '\x7b' :: newLine indent (depth + 1) ++ quote key ++ [':', ' '] ++
      prettyAt indent (depth + 1) v ++ prettyMembers indent (depth + 1) rest ++
      newLine indent depth ++ ['\x7d']

/-- The text of the items of an array after the first one. -/
def prettyItems (indent : Nat) (depth : Nat) : List (Json String) → List Char
  | [] => []
  | item :: rest =>
    ',' :: newLine indent depth ++ prettyAt indent depth item ++ prettyItems indent depth rest

/-- The text of the members of an object after the first one. -/
def prettyMembers (indent : Nat) (depth : Nat) : List (String × Json String) → List Char
  | [] => []
  | (key, v) :: rest =>
    ',' :: newLine indent depth ++ quote key ++ [':', ' '] ++ prettyAt indent depth v ++
      prettyMembers indent depth rest

end

/-- The text of a document. Every level is indented by `indent` blanks more than the one around
it. -/
def pretty (indent : Nat) (j : Json String) : String := String.ofList (j.prettyAt indent 0)

end Json

end ShadowTaint
