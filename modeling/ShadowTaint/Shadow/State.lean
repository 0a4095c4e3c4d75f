import ShadowTaint.Fault
import ShadowTaint.Shadow.Frame
import ShadowTaint.Taint.Entry
/-!
# The shadow state

Everything that is recorded beside the heap of the analysed program: the current frame and the
saved ones, what every shadow handle stands for, the taint of every tracked value, and the counters
from which identities and nodes get their numbers. Handles are numbered by their place in the
table of what they stand for, so a handle is known iff its number is below the table's size.
-/

namespace ShadowTaint

/-- What the last hook left behind for the next one. -/
inductive HookContext where
  /-- Nothing. -/
  | unset
  /-- The identity of a condition. -/
  | conditional
deriving DecidableEq, Repr

/-- The name of a context in dumps. -/
def HookContext.name : HookContext → String
  | .unset => "Unset"
  | .conditional => "ConditionalExpr"

/-- What a taint entry is stored under. -/
inductive TaintKey where
  | identity (id : Identity)
  | object (id : ObjectId)
deriving DecidableEq, Repr

/-- Everything recorded beside the heap. -/
structure ShadowState where
  frame : Frame := { callType := .internal, callSite := 0 }
  /-- What each handle stands for. -/
  wraps : Array (Identity × Literal) := #[]
  entries : Table TaintKey TaintEntry := .empty
  context : HookContext := .unset
  /-- The frames saved under each call site, the last one first. -/
  saved : Table CallSite (List Frame) := .empty
  nextIdentity : Nat := 0
  nextNode : Nat := 0

namespace ShadowState

/-- How many identities are reserved in the current frame. -/
def pendingCount (s : ShadowState) : Nat := s.frame.reserved.length

/-- How many frames are saved under a call site. -/
def savedDepth (s : ShadowState) (site : CallSite) : Nat := ((s.saved.get? site).getD []).length

/-- An identity that was never handed out. -/
def mint (s : ShadowState) : Identity × ShadowState :=
  (⟨s.nextIdentity⟩, { s with nextIdentity := s.nextIdentity + 1 })

/-- Reserves an identity for the hook after the operation. -/
def push (s : ShadowState) (id : Identity) : ShadowState :=
  { s with frame := { s.frame with reserved := id :: s.frame.reserved } }

/-- Takes the identity reserved last, or mints one where none is left. -/
def take (s : ShadowState) : Identity × ShadowState :=
  match s.frame.reserved with
  | id :: rest => (id, { s with frame := { s.frame with reserved := rest } })
  | [] => s.mint

/-- Adds a handle that stands for a literal. -/
def addHandle (s : ShadowState) (id : Identity) (raw : Literal) : Handle × ShadowState :=
  (⟨s.wraps.size⟩, { s with wraps := s.wraps.push (id, raw) })

/-- Saves the current frame under a call site and starts a new one. -/
def saveFrame (s : ShadowState) (callType : CallType) (site : CallSite) : ShadowState :=
  { s with
    frame := { callType, callSite := site }
    saved := s.saved.insert site (s.frame :: (s.saved.get? site).getD []) }

/-- Goes back to the frame saved last under a call site. No list in the table of saved frames is
left empty. -/
def restoreFrame (s : ShadowState) (site : CallSite) : Except Violation ShadowState :=
  match s.saved.get? site with
  | some (frame :: rest) =>
    let saved := if rest.isEmpty then s.saved.erase site else s.saved.insert site rest
    .ok { s with frame, saved }
  | _ => .error (.unknownCallSite site)

/-- Drops what the current frame has in flight, but not what kind of code it runs. -/
def resetFrame (s : ShadowState) : ShadowState :=
  { s with frame := { callType := s.frame.callType, callSite := s.frame.callSite } }

/-- Sets the kind of code that the current frame runs. -/
def setCallType (s : ShadowState) (callType : CallType) : ShadowState :=
  { s with frame := { s.frame with callType } }

/-- Drops the reserved identities. -/
def clearPending (s : ShadowState) : ShadowState :=
  { s with frame := { s.frame with reserved := [] } }

/-- What a shadow stands for, if its handle is known. -/
def lookup? (s : ShadowState) : Value → Option (Identity × Literal)
  | .shadow handle _ _ => s.wraps[handle.index]?
  | _ => none

/-- Whether the value is a shadow with a known handle. -/
def isWrapped (s : ShadowState) (v : Value) : Bool := (s.lookup? v).isSome

/-- The value behind a shadow: what the handle stands for, or what the shadow itself carries where
the handle is unknown. -/
def valueOf (s : ShadowState) (v : Value) : Value :=
  match s.lookup? v with
  | some (_, raw) => .literal raw
  | none => v.raw

/-- What the taint of a value is stored under; bare literals have none. -/
def keyOf (s : ShadowState) (v : Value) : Option TaintKey :=
  match s.lookup? v with
  | some (id, _) => some (.identity id)
  | none => v.object?.map .object

/-- The stored taint of a value. -/
def stored? (s : ShadowState) (v : Value) : Option TaintEntry :=
  (s.keyOf v).bind s.entries.get?

/-- Stores the taint of a value; nothing is stored for bare literals. -/
def store (s : ShadowState) (v : Value) (e : TaintEntry) : ShadowState :=
  match s.keyOf v with
  | some key => { s with entries := s.entries.insert key e }
  | none => s

/-- Requires a number of reserved identities. -/
def checkPending (s : ShadowState) (site : String) (expected : Nat) : Except Violation Unit :=
  if s.pendingCount = expected then .ok () else .error (.pending site expected s.pendingCount)

/-- What a store that is refused has to give back. -/
structure Checkpoint where
  reserved : List Identity
  nextIdentity : Nat
  handles : Nat

/-- A note of what has been handed out so far. -/
def checkpoint (s : ShadowState) : Checkpoint :=
  { reserved := s.frame.reserved, nextIdentity := s.nextIdentity, handles := s.wraps.size }

/-- Forgets the identities and handles handed out since the note was taken. -/
def rollback (s : ShadowState) (c : Checkpoint) : ShadowState :=
  { s with
    frame := { s.frame with reserved := c.reserved }
    wraps := s.wraps.take c.handles
    nextIdentity := c.nextIdentity }

/-- A dump of the state for people. -/
def describe (s : ShadowState) : String :=
  let ids := ", ".intercalate (s.frame.reserved.reverse.map Identity.text)
  s!"frame: \x7b IDS: [{ids}], callType: {s.frame.callType.name}, " ++
    s!"callerIID: {s.frame.callSite} \x7d\n" ++
    s!"Mw: {s.wraps.size} entries\nMt: {s.entries.size} entries\nC: {s.context.name}"

end ShadowState

end ShadowTaint
