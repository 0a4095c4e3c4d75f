import ShadowTaint.Proofs.Heap
import ShadowTaint.Proofs.Shadow
/-!
# The call stack of saved frames

Frames are saved under call sites, and every site has a stack of its own. As long as calls are left in the opposite
order in which they were entered, these stacks together behave like a single one, however often a site is entered
again before it is left. What becomes of the current frame in between does not matter, nor what else is recorded.

## Main definitions

- `FrameEvent`, `ShadowState.run`: what can happen to the frames of a state.
- `CallStack`: one stack of frames for all call sites, from which only the frame on top can be restored.
- `Nested`: every frame that is restored was saved under the site of the latest call that has not been left.
- `ShadowState.Arises`: a state that comes about in the course of a program.

## Main statements

- `ShadowState.Implements.step`, `ShadowState.Implements.run`: the state follows every move of the call stack.
- `Nested.implements_stack`: what a nested sequence of calls does to a state.
-/

namespace ShadowTaint

/-- What can happen to the frames of a state. -/
inductive FrameEvent where
  /-- The current frame is saved under a call site, and a new one is begun. -/
  | save (callType : CallType) (site : CallSite)
  /-- The frame saved last under a call site becomes the current one again. -/
  | restore (site : CallSite)
  /-- The current frame is changed in any way, and all else with it but the saved frames. -/
  | change (now : ShadowState)

/-- The events are properly nested: what a restore brings back was saved under the same site by the latest call that
has not been left. -/
inductive Nested : List FrameEvent → Prop where
  | nil : Nested []
  | change (now : ShadowState) {rest : List FrameEvent} (next : Nested rest) : Nested (.change now :: rest)
  | call (callType : CallType) (site : CallSite) {inside rest : List FrameEvent} (inner : Nested inside)
      (next : Nested rest) : Nested (.save callType site :: (inside ++ .restore site :: rest))

/-- The current frame, and one stack of all saved frames with the sites under which they were saved. -/
structure CallStack where
  current : Frame
  callers : List (CallSite × Frame) := []

namespace CallStack

/-- Only the frame on top of the stack can be restored, and only under its own site. -/
def step (c : CallStack) : FrameEvent → Option CallStack
  | .save callType site => some ⟨{ callType, callSite := site }, (site, c.current) :: c.callers⟩
  | .restore site =>
    match c.callers with
    | (top, frame) :: rest => if top = site then some ⟨frame, rest⟩ else none
    | [] => none
  | .change now => some { c with current := now.frame }

/-- One event after the other. -/
def run (c : CallStack) : List FrameEvent → Option CallStack
  | [] => some c
  | e :: rest => (c.step e).bind (·.run rest)

theorem run_append (c : CallStack) (es es' : List FrameEvent) :
    c.run (es ++ es') = (c.run es).bind (·.run es') := by
  induction es generalizing c with
  | nil => rfl
  | cons e rest ih =>
    rw [List.cons_append, run, run]
    cases c.step e with
    | none => rfl
    | some c' => exact ih c'

/-- The frames that were saved under a site, the last one first. -/
def callersAt (c : CallStack) (site : CallSite) : List Frame :=
  (c.callers.filter fun p => decide (p.1 = site)).map (·.2)

theorem callersAt_cons (current frame : Frame) (top site : CallSite) (rest : List (CallSite × Frame)) :
    callersAt ⟨current, (top, frame) :: rest⟩ site =
      if top = site then frame :: callersAt ⟨current, rest⟩ site else callersAt ⟨current, rest⟩ site := by
  unfold callersAt
  dsimp only
  split
  · rename_i same
    rw [List.filter_cons_of_pos (by simpa using same), List.map_cons]
  · rename_i other
    rw [List.filter_cons_of_neg (by simpa using other)]

end CallStack

/-- A nested sequence of events can happen on every stack, and it leaves the stack as it was. -/
theorem Nested.run_callers {events : List FrameEvent} (nested : Nested events) (c : CallStack) :
    ∃ current, c.run events = some ⟨current, c.callers⟩ := by
  induction nested generalizing c with
  | nil => exact ⟨c.current, rfl⟩
  | change now next ih => exact ih ⟨now.frame, c.callers⟩
  | call callType site inner next ihInner ihNext =>
    obtain ⟨last, inside⟩ := ihInner ⟨{ callType, callSite := site }, (site, c.current) :: c.callers⟩
    obtain ⟨current, after⟩ := ihNext c
    refine ⟨current, ?_⟩
    show CallStack.run ⟨_, _⟩ (_ ++ _) = _
    rw [CallStack.run_append, inside, Option.bind_some, CallStack.run]
    simp only [CallStack.step, if_pos]
    exact after

/-- Every restore in a nested sequence ends a call with a nested sequence inside. -/
theorem Nested.exists_save {events before after : List FrameEvent} {site : CallSite} (nested : Nested events)
    (split : events = before ++ .restore site :: after) :
    ∃ earlier callType inside, before = earlier ++ .save callType site :: inside ∧ Nested inside := by
  induction nested generalizing before after with
  | nil => simp at split
  | change now next ih =>
    cases before with
    | nil => cases split
    | cons e before =>
      rw [List.cons_append] at split
      obtain ⟨rfl, tail⟩ := List.cons.inj split
      obtain ⟨earlier, callType, inside, rfl, inner⟩ := ih tail
      exact ⟨.change now :: earlier, callType, inside, rfl, inner⟩
  | @call callType site' inner rest nestedInner next ihInner ihNext =>
    cases before with
    | nil => cases split
    | cons e before =>
      rw [List.cons_append] at split
      obtain ⟨rfl, both⟩ := List.cons.inj split
      -- the restore stands inside of the first call, it ends this call, or it comes later
      rcases List.append_eq_append_iff.mp both with ⟨middle, rfl, tail⟩ | ⟨middle, rfl, tail⟩
      · cases middle with
        | nil =>
          cases tail
          exact ⟨[], callType, inner, by rw [List.append_nil]; rfl, nestedInner⟩
        | cons e middle =>
          rw [List.cons_append] at tail
          obtain ⟨rfl, later⟩ := List.cons.inj tail
          obtain ⟨earlier, callType', inside', rfl, inner'⟩ := ihNext later
          refine ⟨.save callType site' :: (inner ++ .restore site' :: earlier), callType', inside', ?_, inner'⟩
          simp only [List.cons_append, List.append_assoc]
      · cases middle with
        | nil =>
          cases tail
          rw [List.append_nil] at nestedInner
          exact ⟨[], callType, before, rfl, nestedInner⟩
        | cons e middle =>
          rw [List.cons_append] at tail
          obtain ⟨rfl, -⟩ := List.cons.inj tail
          obtain ⟨earlier, callType', inside', rfl, inner'⟩ := ihInner rfl
          exact ⟨.save callType site' :: earlier, callType', inside', rfl, inner'⟩

namespace ShadowState

variable {s s' base : ShadowState} {c c' : CallStack} {events : List FrameEvent}

/-- What an event does to a state. -/
def step (s : ShadowState) : FrameEvent → Except Violation ShadowState
  | .save callType site => .ok (s.saveFrame callType site)
  | .restore site => s.restoreFrame site
  | .change now => .ok { now with saved := s.saved }

/-- One event after the other, up to the first that fails. -/
def run (s : ShadowState) : List FrameEvent → Except Violation ShadowState
  | [] => .ok s
  | e :: rest => (s.step e).bind (·.run rest)

theorem run_append (s : ShadowState) (es es' : List FrameEvent) :
    s.run (es ++ es') = (s.run es).bind (·.run es') := by
  induction es generalizing s with
  | nil => rfl
  | cons e rest ih =>
    rw [List.cons_append, run, run]
    cases s.step e with
    | error v => rfl
    | ok s' => exact ih s'

/-- The state has the current frame of the call stack, and under every site the frames that the call stack has saved
there lie on what had been saved before. -/
structure Implements (s base : ShadowState) (c : CallStack) : Prop where
  frame : s.frame = c.current
  frames : ∀ site, s.framesAt site = c.callersAt site ++ base.framesAt site

theorem implements_start (s : ShadowState) : s.Implements s ⟨s.frame, []⟩ := ⟨rfl, fun _ => rfl⟩

/-- Whatever the call stack admits, the state does as well. -/
theorem Implements.step (h : s.Implements base c) {e : FrameEvent} (stacked : c.step e = some c') :
    ∃ s', s.step e = .ok s' ∧ s'.Implements base c' := by
  obtain ⟨frame, frames⟩ := h
  obtain ⟨current, callers⟩ := c
  cases e with
  | save callType site =>
    cases stacked
    refine ⟨_, rfl, rfl, fun other => ?_⟩
    rw [framesAt_saveFrame, CallStack.callersAt_cons, frame]
    split
    · rename_i same
      rw [← same, frames site, List.cons_append]
      rfl
    · exact frames other
  | restore site =>
    cases callers with
    | nil => cases stacked
    | cons top rest =>
      obtain ⟨top, caller⟩ := top
      simp only [CallStack.step] at stacked
      split at stacked
      · rename_i same
        cases stacked
        subst same
        have last := frames top
        rw [CallStack.callersAt_cons, if_pos rfl, List.cons_append] at last
        obtain ⟨saved, restored, others⟩ := restoreFrame_of_framesAt last
        refine ⟨_, restored, rfl, fun other => (others other).trans ?_⟩
        split
        · rename_i same
          rw [← same]
          rfl
        · rename_i ne
          rw [frames other, CallStack.callersAt_cons, if_neg ne]
          rfl
      · cases stacked
  | change now =>
    cases stacked
    exact ⟨_, rfl, rfl, frames⟩

/-- A state goes along with the call stack for as long as the stack admits what happens. -/
theorem Implements.run (h : s.Implements base c) (stacked : c.run events = some c') :
    ∃ s', s.run events = .ok s' ∧ s'.Implements base c' := by
  induction events generalizing s c with
  | nil =>
    cases stacked
    exact ⟨s, rfl, h⟩
  | cons e rest ih =>
    obtain ⟨c₁, first, later⟩ := Option.bind_eq_some_iff.mp stacked
    obtain ⟨s₁, stepped, h₁⟩ := h.step first
    obtain ⟨s', ran, h'⟩ := ih h₁ later
    exact ⟨s', by rw [ShadowState.run, stepped]; exact ran, h'⟩

/-- No site is left in the table without a frame. -/
def Occupied (s : ShadowState) : Prop := ∀ e ∈ s.saved.entries, e.2 ≠ []

theorem Occupied.get? (occupied : s.Occupied) (site : CallSite) : s.saved.get? site ≠ some [] :=
  fun found => occupied _ (Table.get?_eq_some_iff.mp found) rfl

/-- To restore a frame is to take back what saving it did to the table. -/
theorem restoreFrame_saveFrame (occupied : s.Occupied) (callType : CallType) (site : CallSite) (now : ShadowState) :
    restoreFrame { now with saved := (s.saveFrame callType site).saved } site =
      .ok { now with frame := s.frame, saved := s.saved } := by
  have found : (s.saveFrame callType site).saved.get? site = some (s.frame :: (s.saved.get? site).getD []) := by
    rw [saveFrame, Table.get?_insert, if_pos rfl]
  rw [restoreFrame]
  dsimp only
  rw [found]
  dsimp only
  rcases before : s.saved.get? site with _ | frames
  · rw [Option.getD_none, List.isEmpty_nil, if_pos rfl, saveFrame]
    dsimp only
    rw [Table.erase_insert_of_get?_none before]
  · have more : frames.isEmpty = false := by
      rw [List.isEmpty_eq_false_iff]
      rintro rfl
      exact occupied.get? site before
    rw [Option.getD_some, more, if_neg Bool.false_ne_true, saveFrame]
    dsimp only
    rw [Table.insert_insert_of_get? before]

theorem Occupied.saveFrame (occupied : s.Occupied) (callType : CallType) (site : CallSite) :
    (s.saveFrame callType site).Occupied := by
  intro e mem
  rcases Table.mem_store mem with rfl | old
  · exact List.cons_ne_nil _ _
  · exact occupied e old

theorem Occupied.step (occupied : s.Occupied) {e : FrameEvent} (stepped : s.step e = .ok s') : s'.Occupied := by
  cases e with
  | save callType site =>
    cases stepped
    exact occupied.saveFrame callType site
  | restore site =>
    simp only [ShadowState.step, restoreFrame] at stepped
    split at stepped
    · cases stepped
      intro e mem
      dsimp only at mem
      split at mem
      · exact occupied e (List.mem_filter.mp mem).1
      · rename_i frame rest _ more
        rcases Table.mem_store mem with rfl | old
        · exact fun empty => more (List.isEmpty_iff.mpr empty)
        · exact occupied e old
    · cases stepped
  | change now =>
    cases stepped
    exact occupied

/-- The states of a program: in the beginning no frame is saved. -/
inductive Arises : ShadowState → Prop where
  | start : Arises {}
  | step {s s' : ShadowState} (arises : Arises s) (e : FrameEvent) (stepped : s.step e = .ok s') : Arises s'

theorem Arises.occupied (arises : s.Arises) : s.Occupied := by
  induction arises with
  | start => exact fun _ mem => absurd mem List.not_mem_nil
  | step _ e stepped ih => exact ih.step stepped

end ShadowState

/-- A nested sequence of events takes back all that it did to the saved frames. -/
theorem Nested.saved {events : List FrameEvent} (nested : Nested events) {s s' : ShadowState} (occupied : s.Occupied)
    (ran : s.run events = .ok s') : s'.saved = s.saved := by
  induction nested generalizing s s' with
  | nil =>
    cases ran
    rfl
  | change now next ih => exact ih (s := { now with saved := s.saved }) occupied ran
  | @call callType site inside rest inner next ihInner ihNext =>
    have split : ((s.saveFrame callType site).run inside).bind (ShadowState.run · (.restore site :: rest)) = .ok s' :=
      (ShadowState.run_append _ _ _).symm.trans ran
    rcases within : (s.saveFrame callType site).run inside with v | s₁ <;> rw [within] at split
    · cases split
    · have resumed : s₁.restoreFrame site = .ok { s₁ with frame := s.frame, saved := s.saved } := by
        have restored := ShadowState.restoreFrame_saveFrame occupied callType site s₁
        rwa [← ihInner (occupied.saveFrame callType site) within] at restored
      have after : (s₁.restoreFrame site).bind (ShadowState.run · rest) = .ok s' := split
      rw [resumed] at after
      exact ihNext (s := { s₁ with frame := s.frame, saved := s.saved }) occupied after

/-- From the state on, the events happen as they do on a single call stack. -/
structure ShadowState.ActsAsStack (s : ShadowState) (events : List FrameEvent) : Prop where
  /-- At every point the state is that of the call stack on which the same has happened. -/
  stacked : ∀ before, before <+: events → ∃ s₁ c, s.run before = .ok s₁ ∧
    CallStack.run ⟨s.frame, []⟩ before = some c ∧ s₁.Implements s c
  /-- A restore brings back the frame that was the current one when the latest call was entered that had not been
  left, and that call was entered from the same site. -/
  restores : ∀ before site, before ++ [.restore site] <+: events → ∃ earlier callType inside s₁ s₂,
    before = earlier ++ .save callType site :: inside ∧ Nested inside ∧
    s.run earlier = .ok s₁ ∧ s.run (before ++ [.restore site]) = .ok s₂ ∧ s₂.frame = s₁.frame
  /-- In the end the table of saved frames is what it was, and no site is left in it without a frame. -/
  ends : ∃ s', s.run events = .ok s' ∧ (∀ site, s'.framesAt site = s.framesAt site) ∧
    (s.Arises → s'.saved = s.saved ∧ ∀ e ∈ s'.saved.entries, e.2 ≠ [])

/-- In every state, properly nested calls do with the frames of their sites what they would do with a single stack. -/
theorem Nested.implements_stack {events : List FrameEvent} (nested : Nested events) (s : ShadowState) :
    s.ActsAsStack events := by
  obtain ⟨last, whole⟩ := nested.run_callers ⟨s.frame, []⟩
  -- a part of what the call stack admits is admitted too
  have stacked (before : List FrameEvent) (part : before <+: events) : ∃ s₁ c, s.run before = .ok s₁ ∧
      CallStack.run ⟨s.frame, []⟩ before = some c ∧ s₁.Implements s c := by
    obtain ⟨after, rfl⟩ := part
    rw [CallStack.run_append] at whole
    obtain ⟨c, ran, -⟩ := Option.bind_eq_some_iff.mp whole
    obtain ⟨s₁, run, implements_⟩ := s.implements_start.run ran
    exact ⟨s₁, c, run, ran, implements_⟩
  refine ⟨stacked, fun before site part => ?_, ?_⟩
  · obtain ⟨after, split⟩ := id part
    rw [List.append_assoc] at split
    obtain ⟨earlier, callType, inside, rfl, inner⟩ := nested.exists_save split.symm
    have entered : earlier <+: events := ⟨_, by rw [← split, List.append_assoc]⟩
    obtain ⟨s₁, c₁, run₁, ran₁, same₁⟩ := stacked earlier entered
    obtain ⟨s₂, c₂, run₂, ran₂, same₂⟩ := stacked _ part
    obtain ⟨current, through⟩ :=
      inner.run_callers ⟨{ callType, callSite := site }, (site, c₁.current) :: c₁.callers⟩
    rw [List.append_assoc, CallStack.run_append, ran₁, Option.bind_some, List.cons_append, CallStack.run,
      CallStack.step, Option.bind_some, CallStack.run_append, through, Option.bind_some, CallStack.run,
      CallStack.step] at ran₂
    dsimp only at ran₂
    rw [if_pos rfl] at ran₂
    cases ran₂
    exact ⟨earlier, callType, inside, s₁, s₂, rfl, inner, run₁, run₂, by rw [same₂.frame, same₁.frame]⟩
  · obtain ⟨s', run, implements_⟩ := s.implements_start.run whole
    refine ⟨s', run, fun site => (implements_.frames site).trans rfl, fun arises => ?_⟩
    have same := nested.saved arises.occupied run
    exact ⟨same, by rw [same]; exact arises.occupied⟩

/-- A function that calls itself from one site and another one in between, where an identity is reserved in every
frame. -/
def recursion : List FrameEvent :=
  let reserving := FrameEvent.change { frame := { reserved := [⟨0⟩], callType := .native, callSite := 7 } }
  [reserving, .save .internal 3, reserving, .save .external 7, reserving, .save .internal 3, .restore 3, reserving,
    .restore 7, .restore 3]

theorem nested_recursion : Nested recursion :=
  .change _ (.call .internal 3
    (.change _ (.call .external 7 (.change _ (.call .internal 3 .nil (.change _ .nil))) .nil)) .nil)

theorem recursion_implements_stack : Nested recursion ∧ ShadowState.Arises {} ∧
    ShadowState.ActsAsStack {} recursion :=
  ⟨nested_recursion, .start, nested_recursion.implements_stack {}⟩

end ShadowTaint
