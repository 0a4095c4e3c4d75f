import ShadowTaint.CommandLine.Options
/-!
# What the program is asked for

The program has three commands of its own: to show the settings that count, to triage an export, and
to draw one as a graph. Options about logging may stand in front of a command or behind it.

## Main definitions

- `Request.ofArguments`: what the arguments of the program ask for.
-/

namespace ShadowTaint

/-- A command of the program. -/
inductive Command where
  /-- Shows the settings that count for a directory, changed by tokens. -/
  | config (tokens : List String) (dir : Option String) (format : String)
  /-- Summarises an export. -/
  | triage (path : String) (format : String) (plain : Bool)
  /-- Draws an export as a graph. -/
  | dot (path : String) (output : Option String)
deriving DecidableEq, Repr

/-- The pages of the help. -/
inductive HelpPage where
  | program (full : Bool)
  | config
  | triage
  | dot
  | help
deriving DecidableEq, Repr

/-- What the arguments of the program ask for. -/
inductive Request where
  | run (command : Command) (logFile : Option String)
  | help (page : HelpPage)
  | version
  /-- Nothing that the program can do. -/
  | invalid
deriving DecidableEq, Repr

namespace Request

open Options

/-- An option that takes one value. -/
def single (name : String) (letter : Option Char) (accepts : String → Bool) : Spec :=
  ⟨name, letter, .one, accepts⟩

/-- An option that is only given or not. -/
def flag (name : String) (letter : Option Char) : Spec := ⟨name, letter, .none, fun _ => true⟩

/-- Whether a value can be a path. -/
def isPath (s : String) : Bool := !s.isEmpty

/-- The names of the levels of logging. -/
def logLevels : List String := ["trace", "debug", "info", "warn", "error"]

/-- The options that may stand in front of a command or behind it. -/
def commonOptions : List Spec :=
  [single "log-level" none logLevels.contains, single "log-file" none isPath,
   flag "log-json" none, flag "help" (some 'h')]

/-- The option for the format of the output. -/
def formatOption : Spec := single "format" (some 'f') fun _ => true

/-- What stands in front of the name of a command. -/
def programGrammar : Grammar where
  options := flag "version" (some 'V') :: commonOptions
  positional := 0
  commands := ["config", "triage", "dot", "help"]

/-- What a command takes, the page of its help, and the command that options and positional
arguments make up. -/
def commandNamed? : String → Option (Grammar × HelpPage × (Progress → Option Command))
  | "config" =>
    let options := [⟨"tokens", none, .many, fun _ => true⟩, single "dir" none isPath, formatOption]
    some (⟨options ++ commonOptions, 0, []⟩, .config, fun p =>
      some (.config ((p.found.get? "tokens").getD []) ((p.found.get? "dir").bind (·.head?))
        (((p.found.get? "format").bind (·.head?)).getD "text")))
  | "triage" =>
    some (⟨formatOption :: flag "no-color" none :: commonOptions, 1, []⟩, .triage, fun p =>
      p.positional.head?.map fun path =>
        .triage path (((p.found.get? "format").bind (·.head?)).getD "text")
          (p.found.contains "no-color"))
  | "dot" =>
    some (⟨single "output" (some 'o') isPath :: commonOptions, 1, []⟩, .dot, fun p =>
      p.positional.head?.map fun path => .dot path ((p.found.get? "output").bind (·.head?)))
  | _ => none

/-- What stops the arguments of a command asks for. -/
def ofStop (page : Bool → HelpPage) : Stop → Request
  | .usage => .invalid
  | .help full => .help (page full)
  | .version => .version

/-- What the arguments behind the command `help` ask for. -/
def ofHelpArguments : List String → Request
  | [] => .help (.program true)
  | ["help"] => .help .help
  | [name] => match commandNamed? name with
    | some (_, page, _) => .help page
    | none => .invalid
  | _ => .invalid

/-- What a command asks for, after the options in front of it. -/
def ofCommand (before : Progress) (name : String) (args : List String) : Request :=
  match commandNamed? name with
  | none => .invalid
  | some (grammar, page, command?) =>
    let parsed := do
      let (p, _) ← parse grammar args
      let p ← p.finish grammar
      return (p, ← before.settle)
    match parsed with
    | .error stop => ofStop (fun _ => page) stop
    | .ok (p, before) => match command? p with
      | none => .invalid
      | some command =>
        let logFile := (p.found.get? "log-file").or (before.found.get? "log-file")
        .run command (logFile.bind (·.head?))

/-- What the arguments of the program ask for. -/
def ofArguments (args : List String) : Request :=
  match parse programGrammar args with
  | .error stop => ofStop .program stop
  | .ok (_, none) => .invalid
  | .ok (before, some (name, rest)) =>
    if name = "help" then ofHelpArguments rest else ofCommand before name rest

end Request

end ShadowTaint
