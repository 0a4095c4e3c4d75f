import ShadowTaint.Table
/-!
# TOML documents

A TOML document is a table of values by name. A table can come into being in four ways, and where it
came from decides what may still be added to it: a table with a header of its own is complete, one
that is only part of the name in another header may get its own header once, one that a dotted key
made takes more dotted keys, and one in braces is never touched again.

## Main definitions

- `Toml`: the values of a document.
- `Toml.putDotted`: a value stored under a dotted key.
- `Toml.declareTable`, `Toml.declareElement`: the effect of the two kinds of headers.
-/

namespace ShadowTaint

/-- How a table came into being. -/
inductive TableOrigin where
  /-- It has a header. -/
  | header
  /-- It is part of the name in a header. -/
  | implied
  /-- It is part of a dotted key. -/
  | dotted
  /-- It was written in braces. -/
  | inline
deriving DecidableEq, Repr

/-- A value of a TOML document. -/
inductive Toml where
  | string (s : String)
  | integer (n : Int)
  /-- A number with a fraction or an exponent, by its spelling. -/
  | float (spelling : String)
  | boolean (b : Bool)
  /-- A date, a time or both, by its spelling. -/
  | moment (spelling : String)
  | array (items : List Toml)
  /-- The tables whose headers stand in double brackets. -/
  | tables (items : List (List (String × Toml)))
  | table (origin : TableOrigin) (members : List (String × Toml))

namespace Toml

/-- The members of a table, in the order in which they were added. -/
abbrev Members := List (String × Toml)

/-- The names in a dotted key or a header, and how deep values may be nested, are below this
bound. -/
def depthBound : Nat := 80

/-- Adds a member; a name cannot be given twice. -/
def add? (key : String) (v : Toml) (ms : Members) : Option Members :=
  if (Table.find key ms).isSome then none else some (ms ++ [(key, v)])

/-- Changes the last one of some tables. -/
def changeLast? (f : Members → Option Members) (items : List Members) : Option (List Members) :=
  match items.reverse with
  | [] => none
  | last :: before => (f last).map fun last => before.reverse ++ [last]

/-- Stores a value under a dotted key. The tables that the names of `path` stand for have to be
open for dotted keys, or are made. -/
def putDotted? : List String → String → Toml → Members → Option Members
  | [], key, v, ms => add? key v ms
  | name :: path, key, v, ms => match Table.find name ms with
    | none =>
      (putDotted? path key v []).map fun inner => ms ++ [(name, .table .dotted inner)]
    | some (.table origin inner) =>
      if origin = .dotted ∨ (origin = .implied ∧ path ≠ []) then
        (putDotted? path key v inner).map fun inner =>
          Table.store name (.table origin inner) ms
      else none
    | some (.tables items) =>
      if path = [] then none
      else (changeLast? (putDotted? path key v) items).map fun items =>
        Table.store name (.tables items) ms
    | some _ => none

/-- Changes the table that the names of a header lead to; of tables in double brackets the last one
is meant. Tables on the way are made where they are missing. -/
def within? : List String → (Members → Option Members) → Members → Option Members
  | [], f, ms => f ms
  | name :: path, f, ms => match Table.find name ms with
    | none => (within? path f []).map fun inner => ms ++ [(name, .table .implied inner)]
    | some (.table origin inner) =>
      if origin = .inline then none
      else (within? path f inner).map fun inner => Table.store name (.table origin inner) ms
    | some (.tables items) =>
      (changeLast? (within? path f) items).map fun items => Table.store name (.tables items) ms
    | some _ => none

/-- What a header does to the table around the one that it names. -/
def declareTable? (key : String) (ms : Members) : Option Members :=
  match Table.find key ms with
  | none => some (ms ++ [(key, .table .header [])])
  | some (.table .implied inner) => some (Table.store key (.table .header inner) ms)
  | some _ => none

/-- What a header in double brackets does to the table around the one that it names. -/
def declareElement? (key : String) (ms : Members) : Option Members :=
  match Table.find key ms with
  | none => some (ms ++ [(key, .tables [[]])])
  | some (.tables items) => some (Table.store key (.tables (items ++ [[]])) ms)
  | some _ => none

end Toml

end ShadowTaint
