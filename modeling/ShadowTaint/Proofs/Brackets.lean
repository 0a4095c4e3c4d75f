import ShadowTaint.Proofs.Blocking
/-!
# Functions that no call announced

A getter, a coercion or a callback of native code is entered without a call hook. Entering it saves
the frame that is current where identities are reserved in it, and else takes that frame over; leaving
it goes back to a saved frame if the current one says that it was entered so. The two do not always
match.

## Main definitions

- `Memory.AsBefore`: a function has come and gone without a trace.
- `Memory.TakenOver`: a function runs in the frame that was current.
- `Memory.Unwound`: an exception has unwound a function and the operation around it.

## Main statements

- `Tracker.enterFunction_transparent_iff`: when a function that is entered between two operations
  leaves no trace.
- `Tracker.unwound_resurfaces`: the frame of an operation that an exception abandoned stays saved, and
  the next function that is left normally brings it back.
-/

namespace ShadowTaint

open Memory Tracker

/-- The state is at rest, the current frame is of the same call and runs the same kind of code, and as
many frames are saved for functions that no call announced. -/
structure Memory.AsBefore (m m' : Memory) : Prop where
  rest : m'.shadow.AtRest
  callType : m'.shadow.frame.callType = m.shadow.frame.callType
  callSite : m'.shadow.frame.callSite = m.shadow.frame.callSite
  depth : m'.shadow.savedDepth functionEntrySite = m.shadow.savedDepth functionEntrySite

/-- A function has taken the current frame over, and complete operations have run in it. -/
structure Memory.TakenOver (m : Memory) (f : Value) (m' : Memory) : Prop where
  rest : m'.shadow.AtRest
  callType : m'.shadow.frame.callType = entryType m f
  callSite : m'.shadow.frame.callSite = m.shadow.frame.callSite
  frames : ∀ site, m'.shadow.framesAt site = m.shadow.framesAt site

/-- An exception has unwound a function that was entered in the middle of an operation. Nothing is
reserved, but the frame of the operation, as the hook before the operation left it in `m₁`, is still
saved on top of what was saved before the operation. -/
structure Memory.Unwound (m m₁ m₂ : Memory) : Prop where
  context : m₂.shadow.context = .unset
  reserved : m₂.shadow.frame.reserved = []
  callSite : m₂.shadow.frame.callSite = functionEntrySite
  frames : m₂.shadow.framesAt functionEntrySite =
    m₁.shadow.frame :: m.shadow.framesAt functionEntrySite

theorem ShadowState.savedDepth_eq (s : ShadowState) (site : CallSite) :
    s.savedDepth site = (s.framesAt site).length := rfl

theorem Memory.ended_of_unset {m : Memory} (unset : m.shadow.context = .unset) : m.ended = m := by
  unfold Memory.ended
  rw [← unset]

/-- A pending condition does not outlive the end of a hook. -/
theorem Memory.unset_of_ended {m : Memory} (rest : m.shadow.AtRest) (still : m.ended.shadow.AtRest) :
    m.shadow.context = .unset := by
  rcases rest with ⟨unset, -⟩ | ⟨-, one⟩
  · exact unset
  · rcases still with ⟨-, empty⟩ | ⟨impossible, -⟩
    · have unreserved : m.shadow.frame.reserved = [] := empty
      rw [unreserved] at one
      cases one
    · cases impossible

namespace CheckedM

/-- Where nothing is reserved, a hook can begin as things are. -/
theorem expectIdle_of_empty {m : Memory} (unset : m.shadow.context = .unset)
    (empty : m.shadow.frame.reserved = []) (site : String) : expectIdle site m = (.ok (), m) := by
  unfold expectIdle
  rw [get_bind_apply, if_neg (by rw [unset]; decide)]
  exact checkPending_ok (by rw [empty]; rfl)

end CheckedM

namespace Tracker

section Entering

/-- The shadow state when a function has been entered: the current frame is saved, or taken over. -/
def entered (m : Memory) (f : Value) : ShadowState :=
  if m.shadow.pendingCount = 0 then m.shadow.setCallType (entryType m f)
  else m.shadow.saveFrame (entryType m f) functionEntrySite

theorem enterFunctionBody_apply (f : Value) (m : Memory) :
    enterFunctionBody f m = CheckedM.expectIdle "WFunctionEnter" { m with shadow := entered m f } := by
  unfold enterFunctionBody entered
  rw [get_bind_apply]
  dsimp only
  split
  · rfl
  · rfl

theorem enterFunction_of {t : Tracker} {f : Value} {r : Except Fault Unit} {m : Memory}
    (run : CheckedM.expectIdle "WFunctionEnter" { t.memory with shadow := entered t.memory f } =
      (r, m)) : ∃ t', enterFunction f t = (r, t') ∧ t'.memory = m.ended := by
  obtain ⟨t', hooked, memory, -⟩ := HookM.memoryHook_of "function_enter"
    (fun t => [("f", t.render f)]) (fun _ => enterFunctionBody f)
    ((enterFunctionBody_apply f t.memory).trans run)
  exact ⟨t', hooked, memory⟩

/-- Where nothing is reserved, a function takes the current frame over. -/
theorem enterFunction_of_empty {t : Tracker} (unset : t.memory.shadow.context = .unset)
    (empty : t.memory.shadow.frame.reserved = []) (f : Value) :
    ∃ t', enterFunction f t = (.ok (), t') ∧ t'.memory =
      { t.memory with shadow := t.memory.shadow.setCallType (entryType t.memory f) } := by
  have inPlace : entered t.memory f = t.memory.shadow.setCallType (entryType t.memory f) :=
    if_pos (List.length_eq_zero_iff.mpr empty)
  obtain ⟨t', hooked, memory⟩ := enterFunction_of (t := t) (f := f)
    (CheckedM.expectIdle_of_empty (by rw [inPlace]; exact unset) (by rw [inPlace]; exact empty) _)
  rw [inPlace] at memory
  exact ⟨t', hooked, memory.trans (Memory.ended_of_unset unset)⟩

/-- A function that takes the current frame over runs to its end in that frame. -/
theorem takenOver_of_empty {t t₂ : Tracker} (unset : t.memory.shadow.context = .unset)
    (empty : t.memory.shadow.frame.reserved = []) (f : Value)
    (operations : Runs .operations (enterFunction f t).2 none t₂) :
    (enterFunction f t).1 = .ok () ∧ t.memory.TakenOver f t₂.memory := by
  obtain ⟨t₁, hooked, memory⟩ := enterFunction_of_empty unset empty f
  rw [hooked] at operations ⊢
  have rest : t₁.memory.shadow.AtRest := by
    rw [memory]
    exact .inl ⟨unset, empty⟩
  obtain ⟨rest₂, same⟩ := operations.outcome rest
  rw [memory] at same
  exact ⟨rfl, rest₂, same.callType, same.callSite, same.frames⟩

/-- Where something is reserved, a function gets a frame of its own. -/
theorem enterFunction_of_held {t : Tracker} (unset : t.memory.shadow.context = .unset)
    (held : t.memory.shadow.frame.reserved ≠ []) (f : Value) :
    ∃ t', enterFunction f t = (.ok (), t') ∧ t'.memory = { t.memory with
      shadow := t.memory.shadow.saveFrame (entryType t.memory f) functionEntrySite } := by
  have own : entered t.memory f = t.memory.shadow.saveFrame (entryType t.memory f)
      functionEntrySite := if_neg fun empty => held (List.length_eq_zero_iff.mp empty)
  obtain ⟨t', hooked, memory⟩ := enterFunction_of (t := t) (f := f)
    (CheckedM.expectIdle_of_empty (by rw [own]; exact unset) (by rw [own]; rfl) _)
  rw [own] at memory
  exact ⟨t', hooked, memory.trans (Memory.ended_of_unset unset)⟩

/-- After a condition the identity of the condition is saved with its frame, and then missed. -/
theorem enterFunction_afterCondition {t : Tracker}
    (conditional : t.memory.shadow.context = .conditional)
    (one : t.memory.shadow.frame.reserved.length = 1) (f : Value) :
    ∃ e t', enterFunction f t = (.error e, t') ∧ e.IsMiscount := by
  have own : entered t.memory f = t.memory.shadow.saveFrame (entryType t.memory f)
      functionEntrySite := if_neg (by rw [ShadowState.pendingCount, one]; decide)
  obtain ⟨e, failed, miscount⟩ := @CheckedM.checkPending_error "WFunctionEnter" 1
    { t.memory with shadow := entered t.memory f } (by rw [own]; exact Nat.zero_ne_one)
  obtain ⟨t', hooked, -⟩ := enterFunction_of (t := t) (f := f) (r := .error e) (by
    unfold CheckedM.expectIdle
    rw [get_bind_apply, if_pos (by rw [own]; exact conditional)]
    exact bind_apply_error failed)
  exact ⟨e, t', hooked, miscount⟩

end Entering

section Leaving

theorem exitFunction_of (threw : Bool) {t : Tracker} {r : Except Fault Unit} {m : Memory}
    (run : exitFunctionBody threw t.memory = (r, m)) :
    ∃ t', exitFunction threw t = (r, t') ∧ t'.memory = m.ended := by
  obtain ⟨t', left, memory, -⟩ := HookM.memoryHook_of "function_exit"
    (fun _ => [("threw", if threw then "true" else "false")]) (fun _ => exitFunctionBody threw) run
  exact ⟨t', left, memory⟩

/-- Leaving a function in the frame of a call changes nothing, and a condition is forgotten. -/
theorem exitFunction_of_call {t : Tracker}
    (called : t.memory.shadow.frame.callSite ≠ functionEntrySite) :
    ∃ t', exitFunction false t = (.ok (), t') ∧ t'.memory = t.memory.ended :=
  exitFunction_of false (exitFunctionBody_of_call called)

/-- Leaving a function in a frame of its own goes back to the frame saved last. -/
theorem exitFunction_of_entry {t : Tracker} {caller : Frame} {rest : List Frame}
    (entered : t.memory.shadow.frame.callSite = functionEntrySite)
    (saved : t.memory.shadow.framesAt functionEntrySite = caller :: rest) :
    ∃ t', exitFunction false t = (.ok (), t') ∧ t'.memory.shadow.context = .unset ∧
      t'.memory.shadow.frame = caller ∧ ∀ site, t'.memory.shadow.framesAt site =
        if functionEntrySite = site then rest else t.memory.shadow.framesAt site := by
  obtain ⟨m, run, frame, frames⟩ := exitFunctionBody_of_entry entered saved
  obtain ⟨t', left, memory⟩ := exitFunction_of false run
  refine ⟨t', left, ?_, ?_, ?_⟩
  · rw [memory]
    rfl
  · rw [memory]
    exact frame
  · rw [memory]
    exact frames

/-- Leaving a function in a frame of its own takes a frame from the saved ones, or fails. -/
theorem savedDepth_of_exit {t : Tracker}
    (entered : t.memory.shadow.frame.callSite = functionEntrySite)
    (left : (exitFunction false t).1 = .ok ()) :
    (exitFunction false t).2.memory.shadow.savedDepth functionEntrySite + 1 =
      t.memory.shadow.savedDepth functionEntrySite := by
  rcases ShadowState.restoreFrame_cases t.memory.shadow functionEntrySite with
    ⟨caller, below, _, saved, -, -⟩ | failed
  · obtain ⟨t', left', -, -, frames⟩ := exitFunction_of_entry entered saved
    rw [left', ShadowState.savedDepth_eq, ShadowState.savedDepth_eq, frames, if_pos rfl, saved]
    rfl
  · have run : exitFunctionBody false t.memory =
        (.error (.violation (.unknownCallSite functionEntrySite)), t.memory) := by
      unfold exitFunctionBody
      rw [if_neg (by decide), get_bind_apply, if_pos entered, failed]
      rfl
    obtain ⟨t', left', -⟩ := exitFunction_of false run
    rw [left'] at left
    cases left

/-- Whatever is reserved, a function that an exception unwinds leaves an empty frame behind, and no
frame is restored. -/
theorem exitFunction_threw (t : Tracker) :
    ∃ t', exitFunction true t = (.ok (), t') ∧
      t'.memory = Memory.ended { t.memory with shadow := t.memory.shadow.resetFrame } := by
  refine exitFunction_of true ?_
  unfold exitFunctionBody
  rw [if_pos rfl, lift_bind_apply]
  exact CheckedM.checkPending_ok rfl

end Leaving

/-- A function that is entered between two operations, in which complete operations run and which is
left normally, leaves no trace exactly if it is not entered right after a condition nor left right
after one, the current frame is not itself one of a function that no call announced, and the function
runs the kind of code that runs already. -/
theorem enterFunction_transparent_iff {t t₂ : Tracker} (rest : t.memory.shadow.AtRest) (f : Value)
    (operations : Runs .operations (enterFunction f t).2 none t₂) :
    ((enterFunction f t).1 = .ok () ∧ (exitFunction false t₂).1 = .ok () ∧
      t.memory.AsBefore (exitFunction false t₂).2.memory) ↔
    t.memory.shadow.context = .unset ∧ t.memory.shadow.frame.callSite ≠ functionEntrySite ∧
      t.memory.shadow.frame.callType = entryType t.memory f ∧
      t₂.memory.shadow.context = .unset := by
  rcases rest with ⟨unset, empty⟩ | ⟨conditional, one⟩
  · obtain ⟨entered, inside⟩ := takenOver_of_empty unset empty f operations
    have depth : t₂.memory.shadow.savedDepth functionEntrySite =
        t.memory.shadow.savedDepth functionEntrySite := by
      rw [ShadowState.savedDepth_eq, inside.frames]
      rfl
    by_cases called : t.memory.shadow.frame.callSite = functionEntrySite
    · -- the frame below is restored, although the function was not entered on top of it
      refine ⟨fun ⟨_, left, before⟩ => ?_, fun ⟨_, other, _⟩ => absurd called other⟩
      have shallower := savedDepth_of_exit (inside.callSite.trans called) left
      rw [before.depth, depth] at shallower
      exact absurd shallower (Nat.succ_ne_self _)
    · obtain ⟨t₃, left, memory⟩ :=
        exitFunction_of_call (t := t₂) (by rw [inside.callSite]; exact called)
      rw [left]
      constructor
      · rintro ⟨-, -, before⟩
        have rest₃ := before.rest
        have type := before.callType
        rw [memory] at rest₃ type
        exact ⟨unset, called, type.symm.trans inside.callType, Memory.unset_of_ended inside.rest rest₃⟩
      · rintro ⟨-, -, type, unset₂⟩
        refine ⟨entered, rfl, ?_⟩
        rw [memory, Memory.ended_of_unset unset₂]
        exact ⟨inside.rest, inside.callType.trans type.symm, inside.callSite, depth⟩
  · obtain ⟨e, t₁, failed, -⟩ := enterFunction_afterCondition conditional one f
    rw [failed]
    refine ⟨fun ⟨impossible, _⟩ => (nomatch impossible), fun ⟨unset, _⟩ => ?_⟩
    rw [conditional] at unset
    cases unset

/-- A function with an ordinary name, in whose body a literal is evaluated, leaves no trace at the start
of a run. -/
theorem enterFunction_transparent_ordinary :
    (withFunction "f").memory.shadow.AtRest ∧ ∃ t₂,
      Runs .operations (enterFunction (.object 0) (withFunction "f")).2 none t₂ ∧
      (exitFunction false t₂).1 = .ok () ∧
      (withFunction "f").memory.AsBefore (exitFunction false t₂).2.memory := by
  have rest : (withFunction "f").memory.shadow.AtRest := .inl ⟨rfl, rfl⟩
  have operations : Runs .operations (enterFunction (.object 0) (withFunction "f")).2 none _ :=
    .next (.plain (.literal (.string "s")) rfl) (.done _)
  have left := (enterFunction_transparent_iff rest (.object 0) operations).mpr
    ⟨rfl, by decide, rfl, rfl⟩
  exact ⟨rest, _, operations, left.2⟩

/-- A function is entered and left. -/
def bracket (f : Value) (body : HookM Unit) : HookM Unit := do
  enterFunction f
  body
  exitFunction false

/-- A condition is tested. -/
def testCondition : HookM Unit := do
  let _ ← conditional (.literal (.bool true))

/-- A property is read, and in its getter a function is entered and left. -/
def bracketInGetter : HookM Unit := do
  let _ ← getFieldPre (.object 0) (.string "x")
  enterFunction (.object 0)
  bracket (.object 0) (pure ())

/-- A function that no call announced leaves its trace: right after a condition it is refused; one that
runs as native code leaves the frame native, and literals stay without shadows; one in the body of a
getter is left into the operation around the getter, although the getter still runs; and the identity
of a condition at its end stays reserved. -/
theorem enterFunction_leaves_trace :
    ((do testCondition; enterFunction (.object 0) : HookM Unit) (withFunction "f")).1 =
      .error (.violation (.pending "WFunctionEnter" 1 0)) ∧
    (bracket (.object 0) (pure ()) (withFunction "toString")).2.memory.shadow.frame.callType =
      .native ∧
    (bracketInGetter (withFunction "f")).2.memory.shadow.frame.reserved = [⟨1⟩, ⟨0⟩] ∧
    ¬ (bracket (.object 0) testCondition (withFunction "f")).2.memory.shadow.AtRest := by
  refine ⟨rfl, rfl, rfl, ?_⟩
  rintro (⟨-, reserved⟩ | ⟨context, -⟩)
  · cases reserved
  · cases context

section Unwinding

/-- The next function that is entered between two operations and left normally brings a frame back in
which identities are still reserved, and no complete operation is accepted after that. -/
def BringsBack (frame : Frame) (t : Tracker) : Prop :=
  ∀ t₁, Runs .operations t none t₁ → t₁.memory.shadow.context = .unset →
    ∀ g t₂, Runs .operations (enterFunction g t₁).2 none t₂ →
      (enterFunction g t₁).1 = .ok () ∧ (exitFunction false t₂).1 = .ok () ∧
      (exitFunction false t₂).2.memory.shadow.frame = frame ∧
      ∀ fault t₃, Runs .operation (exitFunction false t₂).2 fault t₃ → fault ≠ none

/-- The hook before an operation other than a call leaves something reserved in the frame. -/
theorem leaves_of_before {t t₁ : Tracker} {p q : Paired} (rest : t.memory.shadow.AtRest)
    (operation : ∀ c, p ≠ .call c) (before : p.before t = (.ok q, t₁)) :
    ∃ ids, ids ≠ [] ∧ t.memory.Leaves ids t₁.memory := by
  cases Paired.hands_of_before rest before with
  | getField _ _ leaves => exact ⟨_, List.cons_ne_nil _ _, leaves⟩
  | putField _ _ outv leaves => exact ⟨_, outv.ne_nil, leaves⟩
  | binary _ _ leaves => exact ⟨_, List.cons_ne_nil _ _, leaves⟩
  | unary _ leaves => exact ⟨_, List.cons_ne_nil _ _, leaves⟩
  | call real hands opens context => exact absurd rfl (operation _)
  | ghost called leaves => exact absurd rfl (operation _)

/-- Unwinding a function in the middle of an operation drops what is reserved in the function, and the
frame of the operation stays saved. -/
theorem exitFunction_unwinds {t t₁ t₂ : Tracker} {p q : Paired} (idle : t.memory.shadow.AtRest)
    (operation : ∀ c, p ≠ .call c) (before : p.before t = (.ok q, t₁)) (f : Value)
    (operations : Runs .operations (enterFunction f t₁).2 none t₂) :
    t₁.memory.shadow.frame.reserved ≠ [] ∧ (enterFunction f t₁).1 = .ok () ∧
      (exitFunction true t₂).1 = .ok () ∧
      t.memory.Unwound t₁.memory (exitFunction true t₂).2.memory := by
  obtain ⟨ids, reserves, leaves⟩ := leaves_of_before idle operation before
  have held : t₁.memory.shadow.frame.reserved ≠ [] := by rwa [leaves.reserved]
  obtain ⟨t₁', hooked, memory⟩ := enterFunction_of_held leaves.context held f
  obtain ⟨t₃, unwound, memory₃⟩ := exitFunction_threw t₂
  rw [hooked] at operations ⊢
  rw [unwound]
  have rest : t₁'.memory.shadow.AtRest := by
    rw [memory]
    exact .inl ⟨leaves.context, rfl⟩
  obtain ⟨-, same⟩ := operations.outcome rest
  refine ⟨held, rfl, rfl, ?_⟩
  rw [memory₃]
  refine ⟨rfl, rfl, ?_, ?_⟩
  · change t₂.memory.shadow.frame.callSite = functionEntrySite
    rw [same.callSite, memory]
    rfl
  · change t₂.memory.shadow.framesAt functionEntrySite = _
    rw [same.frames, memory, ShadowState.framesAt_saveFrame, if_pos rfl,
      ShadowState.framesAt_of_saved leaves.saved]

/-- Where an exception has unwound an operation, the frame of the operation comes back. -/
theorem bringsBack_of_unwound {m m₁ : Memory} {t : Tracker} (unwound : m.Unwound m₁ t.memory)
    (held : m₁.shadow.frame.reserved ≠ []) : BringsBack m₁.shadow.frame t := by
  intro t₁ operations unset₁ g t₂ body
  obtain ⟨rest₁, same₁⟩ := operations.outcome (.inl ⟨unwound.context, unwound.reserved⟩)
  have empty₁ : t₁.memory.shadow.frame.reserved = [] := by
    rcases rest₁ with ⟨-, empty⟩ | ⟨conditional, -⟩
    · exact empty
    · rw [unset₁] at conditional
      cases conditional
  obtain ⟨entered, inside⟩ := takenOver_of_empty unset₁ empty₁ g body
  have site : t₂.memory.shadow.frame.callSite = functionEntrySite :=
    inside.callSite.trans (same₁.callSite.trans unwound.callSite)
  have saved : t₂.memory.shadow.framesAt functionEntrySite =
      m₁.shadow.frame :: m.shadow.framesAt functionEntrySite :=
    (inside.frames _).trans ((same₁.frames _).trans unwound.frames)
  obtain ⟨t₃, left, context, frame, -⟩ := exitFunction_of_entry site saved
  rw [left]
  refine ⟨entered, rfl, frame, fun fault t₄ run clean => ?_⟩
  obtain ⟨e, failed, -⟩ := run.fails_of_blocked ⟨context, by rw [frame]; exact held⟩
  rw [clean] at failed
  cases failed

/-- An exception that unwinds a function entered in the middle of an operation leaves nothing reserved,
and complete operations go on. But one frame more is saved than before the function was entered, that of
the abandoned operation, and the next function that is entered between two operations and left normally
brings it back. -/
theorem unwound_resurfaces {t t₁ t₂ : Tracker} {p q : Paired}
    (unset : t.memory.shadow.context = .unset) (empty : t.memory.shadow.frame.reserved = [])
    (operation : ∀ c, p ≠ .call c) (before : p.before t = (.ok q, t₁)) (f : Value)
    (operations : Runs .operations (enterFunction f t₁).2 none t₂) :
    (enterFunction f t₁).1 = .ok () ∧ (exitFunction true t₂).1 = .ok () ∧
    (exitFunction true t₂).2.memory.shadow.frame.reserved = [] ∧
    (exitFunction true t₂).2.memory.shadow.savedDepth functionEntrySite =
      t₁.memory.shadow.savedDepth functionEntrySite + 1 ∧
    (∀ fault t₃, Runs .operations (exitFunction true t₂).2 fault t₃ →
      ∀ e, fault = some e → e.EndsRun) ∧
    t₁.memory.shadow.frame.reserved ≠ [] ∧
    BringsBack t₁.memory.shadow.frame (exitFunction true t₂).2 := by
  have rest : t.memory.shadow.AtRest := .inl ⟨unset, empty⟩
  obtain ⟨held, entered, left, unwound⟩ := exitFunction_unwinds rest operation before f operations
  obtain ⟨_, -, leaves⟩ := leaves_of_before rest operation before
  refine ⟨entered, left, unwound.reserved, ?_, ?_, held, bringsBack_of_unwound unwound held⟩
  · rw [ShadowState.savedDepth_eq, ShadowState.savedDepth_eq, unwound.frames,
      ShadowState.framesAt_of_saved leaves.saved]
    rfl
  · intro fault t₃ run e failed
    have outcome := run.outcome (.inl ⟨unwound.context, unwound.reserved⟩)
    rw [failed] at outcome
    exact outcome

/-- The negation of a literal, which an exception abandons. -/
def abandonedNegation : Paired := .unary "-" (.string "s")

/-- The negation is begun, a function is entered in the middle of it, and an exception unwinds both. -/
def abandonNegation : HookM Unit := do
  let _ ← abandonedNegation.before
  enterFunction (.object 0)
  exitFunction true

/-- In the function that is unwound a literal is evaluated; the identity of the operand of the negation
comes back all the same. -/
theorem unwound_resurfaces_negation : ∃ t₁ t₂,
    abandonedNegation.before (withFunction "f") = (.ok abandonedNegation, t₁) ∧
    Runs .operations (enterFunction (.object 0) t₁).2 none t₂ ∧
    (exitFunction true t₂).2.memory.shadow.savedDepth functionEntrySite = 1 ∧
    BringsBack t₁.memory.shadow.frame (exitFunction true t₂).2 ∧
    t₁.memory.shadow.frame.reserved = [⟨0⟩] := by
  have before : abandonedNegation.before (withFunction "f") =
    (.ok abandonedNegation, (abandonedNegation.before (withFunction "f")).2) := rfl
  have operations : Runs .operations
      (enterFunction (.object 0) (abandonedNegation.before (withFunction "f")).2).2 none _ :=
    .next (.plain (.literal (.string "s")) rfl) (.done _)
  obtain ⟨-, -, -, depth, -, -, back⟩ := unwound_resurfaces rfl rfl (by simp [abandonedNegation])
    before (.object 0) operations
  exact ⟨_, _, before, operations, depth, back, rfl⟩

/-- What an exception abandons is not gone: one frame more is saved, a function that is entered and left
brings the identity back, and the next literal is refused. -/
theorem abandonNegation_leaves_frame :
    (abandonNegation (withFunction "f")).1 = .ok () ∧
    (abandonNegation (withFunction "f")).2.memory.shadow.savedDepth functionEntrySite = 1 ∧
    (bracket (.object 0) (pure ()) (abandonNegation (withFunction "f")).2).1 = .ok () ∧
    (literal .undefined (bracket (.object 0) (pure ()) (abandonNegation (withFunction "f")).2).2).1 =
      .error (.violation (.pending "WLiteral" 0 1)) :=
  ⟨rfl, rfl, rfl, rfl⟩

end Unwinding

end Tracker

end ShadowTaint
