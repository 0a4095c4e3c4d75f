import ShadowTaint.Table
/-!
# Options of a command

The arguments of a command are options and positional arguments in any order. An option has a long
name behind two dashes and may have a letter behind one dash; letters can be put together. The value
of an option stands behind an equals sign, right behind its letter, or in the next argument. Two
dashes alone end the options. A command may have further commands, whose name takes over all that
follows it.

## Main definitions

- `Options.Grammar`: what a command takes.
- `Options.parse`: the arguments of a command, taken apart.

## Design notes

A value that stands in an argument of its own is only checked when the next option begins or the
arguments end. So when a further command follows, what that command says counts first.
-/

namespace ShadowTaint.Options

/-- How many values an option takes. -/
inductive Arity where
  /-- It is only given or not. -/
  | none
  | one
  /-- It takes at least one, and may be given again. -/
  | many
deriving DecidableEq, Repr

/-- An option. -/
structure Spec where
  name : String
  letter : Option Char
  arity : Arity
  /-- The values that it takes. -/
  accepts : String → Bool

/-- What a command takes. -/
structure Grammar where
  options : List Spec
  /-- How many positional arguments it has to get. -/
  positional : Nat
  /-- The names of further commands. -/
  commands : List String

/-- Why the arguments of a command do not lead to a run of it. -/
inductive Stop where
  | usage
  /-- The help was asked for, in full or in short. -/
  | help (full : Bool)
  | version
deriving DecidableEq, Repr

/-- The arguments of a command that have been taken apart so far. -/
structure Progress where
  /-- The values of the options by name. -/
  found : Table String (List String) := .empty
  positional : List String := []
  /-- The last option, if its values stand in arguments of their own, with these values. -/
  pending : Option (Spec × List String) := none
  /-- Whether more values may follow. -/
  isOpen : Bool := false

namespace Progress

/-- Takes over the values of an option. An option that takes one value or none cannot be given
again. -/
def record (p : Progress) (o : Spec) (values : List String) : Except Stop Progress :=
  if o.arity = .none then
    if p.found.contains o.name then .error .usage
    else .ok { p with found := p.found.insert o.name [] }
  else if values.isEmpty || !values.all o.accepts then .error .usage
  else match p.found.get? o.name with
    | none => .ok { p with found := p.found.insert o.name values }
    | some before =>
      if o.arity = .many then .ok { p with found := p.found.insert o.name (before ++ values) }
      else .error .usage

/-- Takes over the values of the last option. -/
def settle (p : Progress) : Except Stop Progress :=
  match p.pending with
  | none => .ok p
  | some (o, values) => { p with pending := none, isOpen := false }.record o values

/-- An option without a value in the same argument, by its long name or by its letter. -/
def start (p : Progress) (o : Spec) (isLong : Bool) : Except Stop Progress := do
  let p ← p.settle
  if o.name = "help" then .error (.help isLong)
  else if o.name = "version" then .error .version
  else if o.arity = .none then p.record o []
  else return { p with pending := some (o, []), isOpen := true }

/-- An option with a value in the same argument. -/
def attach (p : Progress) (o : Spec) (value : String) : Except Stop Progress := do
  let p ← p.settle
  if o.arity = .none then .error .usage else p.record o [value]

/-- An argument that is no option: a value of the last option, or a positional argument. -/
def plain (p : Progress) (g : Grammar) (arg : String) : Except Stop Progress := do
  match p.pending, p.isOpen with
  | some (o, values), true =>
    return { p with pending := some (o, values ++ [arg]), isOpen := o.arity = .many }
  | _, _ =>
    let p ← p.settle
    if p.positional.length < g.positional && !arg.isEmpty then
      return { p with positional := p.positional ++ [arg] }
    else .error .usage

end Progress

/-- The options whose letters stand in one argument; the value of the last one may follow it. -/
def letters (g : Grammar) (p : Progress) : List Char → Except Stop Progress
  | [] => .ok p
  | c :: rest => match g.options.find? fun o => o.letter == some c with
    | none => .error .usage
    | some o => match o.arity, rest with
      | .none, _ => do letters g (← p.start o false) rest
      | _, [] => p.start o false
      | _, '=' :: value => p.attach o (String.ofList value)
      | _, value => p.attach o (String.ofList value)

/-- The option that a long name stands for, with or without a value behind an equals sign. -/
def long (g : Grammar) (p : Progress) (cs : List Char) : Except Stop Progress :=
  let name := String.ofList (cs.takeWhile (· != '='))
  match g.options.find? fun o => o.name == name with
  | none => .error .usage
  | some o => match cs.dropWhile (· != '=') with
    | [] => p.start o true
    | _ :: value => p.attach o (String.ofList value)

/-- Takes the arguments of a command apart, up to the name of a further command, which is returned
with what follows it. -/
def parseFrom (g : Grammar) (p : Progress) (ended : Bool) :
    List String → Except Stop (Progress × Option (String × List String))
  | [] => .ok (p, none)
  | arg :: rest =>
    if ended then do parseFrom g (← p.plain g arg) true rest
    else if !p.isOpen && g.commands.contains arg then .ok (p, some (arg, rest))
    else match arg.toList with
      | ['-', '-'] => do parseFrom g (← p.settle) true rest
      | '-' :: '-' :: cs => do parseFrom g (← long g p cs) false rest
      | '-' :: c :: cs => do parseFrom g (← letters g p (c :: cs)) false rest
      | _ => do parseFrom g (← p.plain g arg) false rest

/-- Takes the arguments of a command apart. -/
def parse (g : Grammar) (args : List String) :
    Except Stop (Progress × Option (String × List String)) := parseFrom g {} false args

/-- Whether a command got what it has to get. -/
def Progress.finish (p : Progress) (g : Grammar) : Except Stop Progress := do
  let p ← p.settle
  if p.positional.length = g.positional then return p else .error .usage

end ShadowTaint.Options
