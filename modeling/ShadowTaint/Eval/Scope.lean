import ShadowTaint.Fault
/-!
# Evaluation scopes

Where the evaluation of tainted code is not a finding, the code runs inside a scope, and everything
written while a scope is open is tainted.
-/

namespace ShadowTaint

/-- How many scopes are open, and whether evaluating tainted code is a finding instead. -/
structure EvalScope where
  depth : Nat := 0
  sink : Bool := false
deriving DecidableEq, Repr

namespace EvalScope

/-- Opens a scope. -/
def push (s : EvalScope) : EvalScope := { s with depth := s.depth + 1 }

/-- Closes a scope. -/
def pop (s : EvalScope) : Except Violation EvalScope :=
  match s.depth with
  | 0 => .error .scopeNotOpen
  | depth + 1 => .ok { s with depth }

/-- Whether what is written becomes tainted. -/
def isActive (s : EvalScope) : Bool := !s.sink && decide (0 < s.depth)

end EvalScope

end ShadowTaint
