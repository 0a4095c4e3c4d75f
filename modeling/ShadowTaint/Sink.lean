import ShadowTaint.Heap.Basic
/-!
# Sinks

A sink is a function that must not be called with a tainted argument. Patterns recognise the
built-in ones: the evaluation of code and the start of other programs. Single functions become
sinks when the analysed program registers them, or when they come out of a call that received a
sink.

## Main definitions

- `SinkPattern.describes`: whether a function is what a pattern describes.
- `Sinks.find?`: the pattern of a function.
- `Sinks.register`: makes a single function a sink.
-/

namespace ShadowTaint

/-- What calling a sink does. -/
inductive SinkCategory where
  | codeExecution
  | commandInjection
  | custom
deriving DecidableEq, Repr

/-- The name of a category. -/
def SinkCategory.name : SinkCategory → String
  | .codeExecution => "code_execution"
  | .commandInjection => "command_injection"
  | .custom => "custom"

/-- How a function became a sink. -/
inductive SinkKind where
  | builtIn
  | custom
  | laundered
deriving DecidableEq, Repr

/-- The name of a kind of sink. -/
def SinkKind.name : SinkKind → String
  | .builtIn => "BuiltIn"
  | .custom => "Custom"
  | .laundered => "Laundered"

/-- What a pattern recognises a function by. -/
inductive SinkTarget where
  | builtin (b : Builtin)
  /-- The name of a native function that calls do not treat specially. -/
  | native (name : String)
  /-- One function. -/
  | function (id : ObjectId)
deriving DecidableEq, Repr

/-- A description of sinks. -/
structure SinkPattern where
  target : SinkTarget
  kind : SinkKind
  category : SinkCategory
  description : String
deriving Repr

namespace SinkPattern

/-- Whether a value, its shadow put aside, is what a pattern describes. -/
def describes (p : SinkPattern) (h : Heap) (callee : Value) : Bool :=
  match p.target with
  | .function id => callee.object? == some id
  | .builtin b => (h.function? callee).any fun f => f.builtin == some b
  | .native name =>
    (h.function? callee).any fun f => f.isNative && f.builtin.isNone && f.name == name

/-- Whether the pattern describes one function only. -/
def isFunction (p : SinkPattern) : Bool :=
  match p.target with
  | .function _ => true
  | _ => false

end SinkPattern

/-- All known sinks: the patterns in the order of registration, and those of single functions by
function. -/
structure Sinks where
  patterns : List SinkPattern := []
  byFunction : Table ObjectId SinkPattern := .empty

namespace Sinks

/-- Adds a pattern. -/
def add (s : Sinks) (p : SinkPattern) : Sinks where
  patterns := s.patterns ++ [p]
  byFunction := match p.target with
    | .function id => s.byFunction.insert id p
    | _ => s.byFunction

/-- The patterns of the built-in sinks. -/
def builtInPatterns : List SinkPattern :=
  [⟨.builtin .eval, .builtIn, .codeExecution, "Dynamic code evaluation"⟩,
   ⟨.builtin .functionConstructor, .builtIn, .codeExecution, "Function constructor"⟩,
   ⟨.native "exec", .builtIn, .commandInjection, "Shell command execution"⟩,
   ⟨.native "execSync", .builtIn, .commandInjection, "Synchronous shell command execution"⟩,
   ⟨.native "spawn", .builtIn, .commandInjection, "Process spawn"⟩,
   ⟨.native "spawnSync", .builtIn, .commandInjection, "Synchronous process spawn"⟩]

/-- The built-in sinks. -/
def builtIn : Sinks := builtInPatterns.foldl add {}

/-- The pattern that makes a value a sink: its own, else the first of the others that describes
it. -/
def find? (s : Sinks) (h : Heap) (callee : Value) : Option SinkPattern :=
  match callee.object?.bind s.byFunction.get? with
  | some p => some p
  | none => s.patterns.find? fun p => !p.isFunction && p.describes h callee

/-- Whether a value is a sink. -/
def isSink (s : Sinks) (h : Heap) (v : Value) : Bool := (s.find? h v).isSome

/-- The name of a function, which is empty for other values. -/
def calleeName (h : Heap) (v : Value) : String := ((h.function? v).map (·.name)).getD ""

/-- Makes one object a sink. There is nothing to do for values that are no objects or are a sink
already. -/
def register? (s : Sinks) (h : Heap) (v : Value) (kind : SinkKind) (category : SinkCategory) :
    Option Sinks :=
  match v.object? with
  | none => none
  | some id =>
    if s.isSink h v then none
    else some (s.add ⟨.function id, kind, category, s!"{kind.name} sink {calleeName h v}"⟩)

end Sinks

end ShadowTaint
