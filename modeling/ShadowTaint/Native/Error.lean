import ShadowTaint.Native.Basic
/-!
# Failures of native functions

Why a native function did not return, as causes, with the class and the text of each.
-/

namespace ShadowTaint

/-- Why a native function failed. -/
inductive NativeError where
  | notString (method : StringMethod)
  | notArray (method : ArrayMethod)
  | notMap
  | notSet
  | notFunction
  | thrownByHost
  | invalidCount (count : Int)
  | tooDeep
  /-- The function can be recognised but not run. -/
  | unavailable (name : String)
deriving DecidableEq, Repr

/-- The classes of failures. -/
inductive NativeError.Class where
  | type | range | unsupported
deriving DecidableEq, Repr

namespace NativeError

/-- The class of a failure. -/
def errorClass : NativeError → Class
  | .invalidCount _ | .tooDeep => .range
  | .unavailable _ => .unsupported
  | _ => .type

/-- What a failure says, without its class. -/
def detail : NativeError → String
  | .notString m => s!"String.prototype.{m.name} called on a non-string"
  | .notArray m => s!"Array.prototype.{m.name} called on a non-array"
  | .notMap => "Map method called on a non-map"
  | .notSet => "Set method called on a non-set"
  | .notFunction => "value is not a function"
  | .thrownByHost => "thrown by host"
  | .invalidCount n => s!"Invalid count value: {n}"
  | .tooDeep => "Maximum call stack size exceeded"
  | .unavailable name => s!"{name} is not executable by the runtime model"

/-- The text of a failure. -/
def message (e : NativeError) : String :=
  match e.errorClass with
  | .type => "TypeError: " ++ e.detail
  | .range => "RangeError: " ++ e.detail
  | .unsupported => e.detail

end NativeError

end ShadowTaint
