import ShadowTaint.Proofs.Outside
/-!
# Who opens and closes scopes

Scopes are opened and closed by two ghost functions, so only the hook before a call can change how many
are open. Whether evaluating tainted code is a finding is settled when a run begins.

## Main definitions

- `Tracker.SameScope`: the open scopes are the same.
- `Tracker.SameSink`: evaluating tainted code is a finding in both states or in none.

## Main statements

- `Hook.sameScope`: every hook but the one before a call leaves the scopes alone.
- `Hook.sameSink`: no hook changes whether evaluating tainted code is a finding.
-/

namespace ShadowTaint

namespace Tracker

/-- The open scopes are the same. -/
def SameScope (t t' : Tracker) : Prop := t'.scope = t.scope

/-- Evaluating tainted code is a finding in both states or in none. -/
def SameSink (t t' : Tracker) : Prop := t'.scope.sink = t.scope.sink

instance : IsPreorder Tracker SameScope where
  refl _ := rfl
  trans _ _ _ first second := Eq.trans second first

instance : IsPreorder Tracker SameSink where
  refl _ := rfl
  trans _ _ _ first second := Eq.trans second first

theorem outside_sameScope : Outside SameScope := ⟨fun logs => logs.scope, fun _ _ => rfl⟩

theorem outside_sameSink : Outside SameSink :=
  ⟨fun logs => congrArg EvalScope.sink logs.scope, fun _ _ => rfl⟩

theorem sameSink_reportSink (t : Tracker) (name : String) : t.SameSink (t.reportSink name) := by
  unfold reportSink
  split
  · rfl
  · rfl

end Tracker

open Tracker

namespace Ghost

/-- Opening and closing scopes changes only how many are open. -/
theorem sameSink_run (ghost : Ghost) (args : List Value) : Within SameSink (ghost.run args) :=
  within_run {
    logs := fun _ _ => rfl
    sinks := fun _ _ => rfl
    scopes := fun _ _ same => same
    reads := fun _ _ => rfl
    whole := fun _ _ _ _ => rfl
    property := fun _ _ _ _ _ => rfl } args

end Ghost

namespace Hook

/-- Every hook but the one before a call leaves the scopes alone. -/
theorem sameScope (h : Hook) (other : ∀ c, h ≠ .callPre c) : Within SameScope h.run :=
  outside_sameScope.run (HookM.within_registerSink (fun _ _ => rfl) fun _ _ => rfl) h
    fun c same => absurd same (other c)

/-- No hook changes whether evaluating tainted code is a finding. -/
theorem sameSink (h : Hook) : Within SameSink h.run := by
  refine outside_sameSink.run (HookM.within_registerSink (fun _ _ => rfl) fun _ _ => rfl) h
    fun _ _ c native => ?_
  rw [callPreBody_eq]
  exact .bind_except (outside_sameSink.checkCall sameSink_reportSink c) fun _ =>
    outside_sameSink.enterCall Ghost.sameSink_run c native

end Hook

end ShadowTaint
