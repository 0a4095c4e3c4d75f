import ShadowTaint.Table
import ShadowTaint.Value
/-!
# Frames

Between the hook before an operation and the hook after it, the identities of the operands lie on a
stack. Every invocation has a stack of its own, its *frame*, together with the kind of code that is
running and the identities taken off the arguments' properties.
-/

namespace ShadowTaint

/-- The place of a call in the analysed program. -/
abbrev CallSite := Int

/-- The call site under which functions are saved that were entered without a call hook. -/
def functionEntrySite : CallSite := -1

/-- The kinds of code that run in a frame. -/
inductive CallType where
  | internal
  | external
  | native
  | unknown
deriving DecidableEq, Repr

namespace CallType

/-- The name of a kind of code. -/
def name : CallType → String
  | .internal => "Internal"
  | .external => "External"
  | .native => "Native"
  | .unknown => "Unknown"

/-- Whether literals that come up while this kind of code runs stay without a shadow. -/
def skipsWrapping : CallType → Bool
  | .native | .unknown => true
  | .internal | .external => false

end CallType

/-- The identity of a property's value and those of the properties below it. -/
structure TaintTree where
  property : String
  identity : Identity
  children : List TaintTree

/-- What one invocation has in flight. -/
structure Frame where
  /-- The reserved identities, the last one first. -/
  reserved : List Identity := []
  callType : CallType
  callSite : CallSite
  /-- The identities taken off the properties of argument objects. -/
  trees : Table ObjectId (List TaintTree) := .empty

end ShadowTaint
