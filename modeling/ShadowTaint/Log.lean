/-!
# Log events

What happens during a run is logged as events: a level, fields in order, and for some events a
message.
-/

namespace ShadowTaint

/-- How important an event is, from the most detailed level up. -/
inductive LogLevel where
  | trace
  | debug
  | info
  | warn
  | error
deriving DecidableEq, Repr

/-- The name of a level. -/
def LogLevel.name : LogLevel → String
  | .trace => "TRACE"
  | .debug => "DEBUG"
  | .info => "INFO"
  | .warn => "WARN"
  | .error => "ERROR"

/-- Something that was logged. -/
structure LogEvent where
  level : LogLevel
  message : Option String := none
  fields : List (String × String) := []
deriving DecidableEq, Repr

end ShadowTaint
