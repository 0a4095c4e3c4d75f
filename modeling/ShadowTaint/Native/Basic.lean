/-!
# Built-in methods

The methods that the runtime brings along, as names: what each of them does stands in
`ShadowTaint.Native.Strings` and `ShadowTaint.Native.Invoke`. A host may also define functions with
one of a few canned behaviours.
-/

namespace ShadowTaint

/-- The methods of strings. -/
inductive StringMethod where
  | blink | charAt | charCodeAt | codePointAt | concat | indexOf | repeated | replace | slice
  | split | substr | substring | toLowerCase | toUpperCase | trim
deriving DecidableEq, Repr

/-- The name of a string method. -/
def StringMethod.name : StringMethod → String
  | .blink => "blink"
  | .charAt => "charAt"
  | .charCodeAt => "charCodeAt"
  | .codePointAt => "codePointAt"
  | .concat => "concat"
  | .indexOf => "indexOf"
  | .repeated => "repeat"
  | .replace => "replace"
  | .slice => "slice"
  | .split => "split"
  | .substr => "substr"
  | .substring => "substring"
  | .toLowerCase => "toLowerCase"
  | .toUpperCase => "toUpperCase"
  | .trim => "trim"

/-- The string methods in the order in which they are installed. -/
def StringMethod.all : List StringMethod :=
  [.blink, .charAt, .charCodeAt, .codePointAt, .concat, .indexOf, .repeated, .replace, .slice,
   .split, .substr, .substring, .toLowerCase, .toUpperCase, .trim]

/-- The methods of arrays. -/
inductive ArrayMethod where
  | join | push
deriving DecidableEq, Repr

/-- The name of an array method. -/
def ArrayMethod.name : ArrayMethod → String
  | .join => "join"
  | .push => "push"

/-- The methods of maps. -/
inductive MapMethod where
  | get | set
deriving DecidableEq, Repr

/-- The name of a map method. -/
def MapMethod.name : MapMethod → String
  | .get => "get"
  | .set => "set"

/-- The methods of sets. -/
inductive SetMethod where
  | add | values
deriving DecidableEq, Repr

/-- The name of a set method. -/
def SetMethod.name : SetMethod → String
  | .add => "add"
  | .values => "values"

/-- The functions that start other programs. They start nothing here. -/
inductive ProcessMethod where
  | exec | execFile | execSync | spawn | spawnSync
deriving DecidableEq, Repr

/-- The name of a function that starts other programs. -/
def ProcessMethod.name : ProcessMethod → String
  | .exec => "exec"
  | .execFile => "execFile"
  | .execSync => "execSync"
  | .spawn => "spawn"
  | .spawnSync => "spawnSync"

/-- The functions that start other programs, in the order in which they are installed. -/
def ProcessMethod.all : List ProcessMethod := [.exec, .execFile, .execSync, .spawn, .spawnSync]

/-- Canned behaviours of functions that a host defines. -/
inductive HostBehaviour where
  /-- Returns undefined. -/
  | nothing
  /-- Returns the receiver. -/
  | receiver
  /-- Returns the first argument. -/
  | firstArgument
  /-- Returns the number of arguments. -/
  | argumentCount
  /-- Returns a new array of the arguments. -/
  | argumentArray
  /-- Fails with a type error. -/
  | failing
deriving DecidableEq, Repr

/-- What runs when a native function is called. -/
inductive Native where
  | string (method : StringMethod)
  | array (method : ArrayMethod)
  | map (method : MapMethod)
  | set (method : SetMethod)
  | process (method : ProcessMethod)
  /-- Calls its receiver with the first argument as receiver. -/
  | call
  /-- Calls its receiver with an array of arguments. -/
  | apply
  /-- Makes an anonymous script function. -/
  | construct
  /-- Exists only to be recognised. -/
  | unavailable
  | host (behaviour : HostBehaviour)
deriving DecidableEq, Repr

/-- The functions that calls treat specially. -/
inductive Builtin where
  | call | apply | bind | require | eval | functionConstructor
deriving DecidableEq, Repr

/-- The name of a specially treated function in listings of sinks. -/
def Builtin.name : Builtin → String
  | .call => "Call"
  | .apply => "Apply"
  | .bind => "Bind"
  | .require => "Require"
  | .eval => "Eval"
  | .functionConstructor => "FunctionConstructor"

end ShadowTaint
