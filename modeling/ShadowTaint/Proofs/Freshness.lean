import ShadowTaint.Proofs.Sessions
import ShadowTaint.Proofs.Persistence
/-!
# Fresh identities and handles

Identities and handles are numbered by counting, and a refused store turns both counters back. What a
counter has not reached must not occur anywhere, or the next literal would come under the taint of
another value. This file says so for every state that hooks can lead to.

## Main definitions

- `ShadowState.Knows`: a handle stands for something.
- `ShadowState.Counted`: what occurs is below its counter.

## Main statements

- `Reachable.counted`: every identity that occurs and every known handle was counted.
- `Reachable.literal_fresh`: a literal comes back untainted, under an identity and a handle that occur
  nowhere.
-/

namespace ShadowTaint

open Memory

namespace ShadowState

/-- The handle stands for something. -/
def Knows (s : ShadowState) (handle : Handle) : Prop :=
  ∃ id raw, s.wraps[handle.index]? = some (id, raw)

/-- Every identity that occurs, and every handle that stands for something, is below the counter that
the next one is numbered from. -/
structure Counted (s : ShadowState) : Prop where
  identities : ∀ id, s.Mentions id → id.index < s.checkpoint.nextIdentity
  handles : ∀ handle, s.Knows handle → handle.index < s.checkpoint.handles

theorem counted_of_bounded {s : ShadowState} (h : s.Bounded) : s.Counted where
  identities := h
  handles := by
    rintro handle ⟨id, raw, known⟩
    exact (Array.getElem?_eq_some_iff.mp known).1

end ShadowState

/-- The memory with nothing reserved. -/
def Memory.idle (m : Memory) : Memory :=
  { m with shadow := { m.shadow with frame := m.shadow.frame.withReserved [] } }

/-- At rest a hook drops the identity of a condition, and hands nothing out. -/
theorem CheckedM.expectIdle_atRest {m : Memory} (rest : m.shadow.AtRest) (site : String) :
    expectIdle site m = (.ok (), m.idle) := by
  unfold expectIdle
  rw [get_bind_apply]
  rcases rest with ⟨unset, empty⟩ | ⟨conditional, one⟩
  · have same : m.idle = m := by
      unfold Memory.idle Frame.withReserved
      rw [← empty]
    rw [if_neg (by rw [unset]; decide), same]
    exact checkPending_ok (by rw [empty]; rfl)
  · rw [if_pos conditional, bind_apply_ok (checkPending_ok one)]
    rcases m.shadow.take_cases with ⟨id, others, reserved, taken⟩ | ⟨empty, -⟩
    · have dropped : MemoryM.discard m = ((), m.idle) := by
        rw [reserved, List.length_cons] at one
        rw [List.length_eq_zero_iff.mp (Nat.succ.inj one)] at taken
        exact congrArg (fun x => ((), { m with shadow := x.2 })) taken
      rw [lift_bind_of dropped]
      exact checkPending_ok rfl
    · rw [empty] at one
      cases one

/-- Where literals get shadows, a literal gets the next identity and the next handle. -/
theorem Tracker.literalBody_fresh (levels : Levels) {m : Memory} (rest : m.shadow.AtRest)
    (wraps : m.shadow.frame.callType.skipsWrapping = false) (raw : Literal) :
    ∃ m', literalBody (.literal raw) levels m =
        (.ok (.shadow ⟨m.shadow.checkpoint.handles⟩ ⟨m.shadow.checkpoint.nextIdentity⟩ raw), m') ∧
      m'.shadow.entries = m.shadow.entries ∧
      m'.shadow.wraps = m.shadow.wraps.push (⟨m.shadow.checkpoint.nextIdentity⟩, raw) := by
  have wrapped := (MemoryM.wrap_bare levels raw m.idle).trans
    (MemoryM.shadow_of_wraps (m := (MemoryM.takeIdentity m.idle).2) wraps _ _)
  generalize issued : Memory.mk _ (ShadowState.addHandle _ _ raw).2 = m' at wrapped
  have passed : CheckedM.checkPending "WLiteral" 0 m' = (.ok (), m') :=
    CheckedM.checkPending_ok (by rw [← issued]; rfl)
  unfold literalBody
  rw [bind_apply_ok (CheckedM.expectIdle_atRest rest _), lift_bind_of wrapped, bind_apply_ok passed]
  exact ⟨m', rfl, by rw [← issued]; rfl, by rw [← issued]; rfl⟩

/-- The counters are ahead of everything that occurs, whatever was handed out and taken back. -/
theorem Reachable.counted {t : Tracker} (reachable : Reachable t) : t.memory.shadow.Counted :=
  ShadowState.counted_of_bounded reachable.bounded

/-- In every reachable state the counters are ahead of everything that occurs, and a literal that is
evaluated at rest, where literals get shadows, comes back untainted under an identity and a handle
that occurred nowhere. -/
theorem Reachable.literal_fresh {t : Tracker} (reachable : Reachable t) :
    t.memory.shadow.Counted ∧
    ∀ raw, t.memory.shadow.AtRest → t.memory.shadow.frame.callType.skipsWrapping = false →
      ∃ handle id t', Tracker.literal (.literal raw) t = (.ok (.shadow handle id raw), t') ∧
        ¬ t.memory.shadow.Mentions id ∧ ¬ t.memory.shadow.Knows handle ∧
        t'.memory.isTainted (.shadow handle id raw) = false := by
  have counted := reachable.counted
  refine ⟨counted, fun raw rest wraps => ?_⟩
  obtain ⟨m', body, entries, handles⟩ :=
    Tracker.literalBody_fresh t.settings.policies rest wraps raw
  obtain ⟨t', run, memory, -⟩ := HookM.memoryHook_of "literal"
    (fun t => [("value", t.render (.literal raw))]) (Tracker.literalBody (.literal raw)) body
  have new : ¬ t.memory.shadow.Mentions ⟨t.memory.shadow.checkpoint.nextIdentity⟩ := fun mention =>
    Nat.lt_irrefl _ (counted.identities _ mention)
  refine ⟨_, _, t', run, new, fun known => Nat.lt_irrefl _ (counted.handles _ known), ?_⟩
  have own : t'.memory.shadow.lookup? (.shadow ⟨t.memory.shadow.checkpoint.handles⟩
      ⟨t.memory.shadow.checkpoint.nextIdentity⟩ raw) =
        some (⟨t.memory.shadow.checkpoint.nextIdentity⟩, raw) := by
    rw [memory]
    show m'.shadow.wraps[t.memory.shadow.wraps.size]? = _
    rw [handles, Array.getElem?_push_size]
  have untracked : t'.memory.shadow.entries.get?
      (.identity ⟨t.memory.shadow.checkpoint.nextIdentity⟩) = none := by
    rw [memory]
    show m'.shadow.entries.get? _ = none
    rw [entries]
    exact Option.not_isSome_iff_eq_none.mp fun stored => new (.inl stored)
  rw [isTainted_of_lookup own, untracked]
  rfl

/-- The state after a store that was refused, which turned both counters back. -/
def afterRefusal : Tracker :=
  (Session.run (.start Session.preciseArrays ⟨#[]⟩)
    (Session.taintedStore ++ [Session.refusal])).tracker

theorem Reachable.literal_fresh_refusal :
    Reachable afterRefusal ∧ afterRefusal.memory.shadow.AtRest ∧
      afterRefusal.memory.shadow.Counted ∧
      ∃ handle id t', Tracker.literal (.string "a") afterRefusal =
          (.ok (.shadow handle id (.string "a")), t') ∧
        ¬ afterRefusal.memory.shadow.Mentions id ∧ ¬ afterRefusal.memory.shadow.Knows handle ∧
        t'.memory.isTainted (.shadow handle id (.string "a")) = false := by
  have reachable : Reachable afterRefusal := Session.reachable_run
    (s := .start Session.preciseArrays ⟨#[]⟩) (.start _ _) (Session.taintedStore ++ [Session.refusal])
  have rest : afterRefusal.memory.shadow.AtRest := .inl ⟨by decide +kernel, by decide +kernel⟩
  have fresh := Reachable.literal_fresh reachable
  exact ⟨reachable, rest, fresh.1, fresh.2 (.string "a") rest (by decide +kernel)⟩

end ShadowTaint
