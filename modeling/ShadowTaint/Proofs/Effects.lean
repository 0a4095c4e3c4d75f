import ShadowTaint.Proofs.Hooks
import ShadowTaint.Tracker.Ghosts
/-!
# What ghost functions are made of

A ghost function looks at the state, and then it writes taint, makes a function a sink, opens or closes
a scope, or does nothing but check. What holds of each of these actions, and passes from actions to
what is made of them, holds of the whole function, whether the function succeeds or fails.

## Main definitions

- `Fault.OfGhost`: the faults of ghost functions.
- `Ghost.writes?`: what a ghost function writes.
- `Ghost.Admits`: a property of actions that a ghost function is made of.
- `Ghost.Allowed`: a relation between states admits every change that a ghost function makes.

## Main statements

- `Ghost.Admits.run`: the property holds of the function.
- `Ghost.within_run`: a ghost function stays within a relation that admits its changes.
-/

namespace ShadowTaint

open Tracker

/-- A fault that a ghost function may end with. -/
def Fault.OfGhost : Fault → Prop
  | .assertion _ => True
  | .completed => True
  | .chars _ => True
  | .violation v => v = .scopeNotOpen
  | .finding f => f.kind = .taintedArgument
  | .native _ => False

namespace Ghost

/-- What the function writes: taint, or that there is none. Most functions write neither. -/
def writes? : Ghost → Option Bool
  | .setTaint | .setPropertyTaint | .setRangeTaint => some true
  | .clearTaint | .clearPropertyTaint | .clearRangeTaint => some false
  | _ => none

/-- The property holds of the actions that the function is made of, and of what is made of such
actions. -/
structure Admits (Good : (α : Type) → HookM α → Prop) (ghost : Ghost) : Prop where
  returns : ∀ {α : Type} (a : α), Good α (pure a)
  binds : ∀ {α β : Type} {x : HookM α} {f : α → HookM β}, Good α x → (∀ a, Good β (f a)) →
    Good β (x >>= f)
  reads : Good Tracker get
  fails : ∀ {α : Type} {e : Fault}, e.OfGhost → e.finding? = none → Good α (throw e)
  logEvent : ∀ e, Good Unit (HookM.logEvent e)
  registerSink : ∀ v kind category, Good Bool (HookM.registerSink v kind category)
  check : ∀ v, Good Unit (HookM.onMemory (CheckedM.check v))
  whole : ∀ tainted v, ghost.writes? = some tainted →
    Good Unit (HookM.onMemory (MemoryM.setTaint v tainted))
  property : ∀ tainted v key, ghost.writes? = some tainted →
    Good Unit (HookM.onMemory (CheckedM.setPropertyTaint v key tainted))
  push : ghost = .pushScope → Good Unit (modify fun t => { t with scope := t.scope.push })
  /-- Which scope is closed depends on the state, so closing is not taken apart. -/
  pop : ghost = .popScope → ∀ args, Good Unit (popScope.effect args)

namespace Admits

variable {Good : (α : Type) → HookM α → Prop} {ghost : Ghost}

theorem require (h : ghost.Admits Good) (condition : Bool) (otherwise : FailedAssertion) :
    Good Unit (Ghost.require condition otherwise) := by
  unfold Ghost.require
  split
  · exact h.returns _
  · exact h.fails trivial rfl

theorem range (h : ghost.Admits Good) (low high : Value) :
    Good (Nat × Nat) (Ghost.range ghost low high) := by
  refine h.binds h.reads fun t => ?_
  dsimp only
  split
  · exact h.returns _
  · exact h.fails trivial rfl

theorem setRange (h : ghost.Admits Good) {tainted : Bool} (writes : ghost.writes? = some tainted)
    (v : Value) (start count : Nat) : Good Unit (Ghost.setRange v tainted start count) := by
  induction count generalizing start with
  | zero => exact h.returns _
  | succ count ih => exact h.binds (h.property tainted v _ writes) fun _ => ih _

theorem propertyTaint (h : ghost.Admits Good) (v : Value) (key : String) :
    Good Bool (Ghost.propertyTaint v key) := by
  refine h.binds h.reads fun t => ?_
  split
  · exact h.returns _
  · exact h.fails trivial rfl

theorem stringIndices (h : ghost.Admits Good) (v : Value) (tainted : Bool) (start count : Nat) :
    Good (List Nat) (Ghost.stringIndices v tainted start count) := by
  induction count generalizing start with
  | zero => exact h.returns _
  | succ count ih =>
    exact h.binds (h.propertyTaint v _) fun _ => h.binds (ih _) fun _ => h.returns _

/-- The property holds of what the function does with the arguments that it takes. -/
theorem effect (h : ghost.Admits Good) (args : List Value) : Good Unit (ghost.effect args) := by
  by_cases closes : ghost = .popScope
  · subst closes
    exact h.pop rfl args
  refine h.binds h.reads fun t => ?_
  cases ghost with
  | setTaint => exact h.whole true _ rfl
  | clearTaint => exact h.whole false _ rfl
  | setPropertyTaint => exact h.property true _ _ rfl
  | clearPropertyTaint => exact h.property false _ _ rfl
  | setRangeTaint => exact h.binds (h.range _ _) fun _ => h.setRange rfl _ _ _
  | clearRangeTaint => exact h.binds (h.range _ _) fun _ => h.setRange rfl _ _ _
  | checkTaint => exact h.check _
  | checkTaintString =>
    refine h.binds (h.stringIndices _ _ _ _) fun indices => ?_
    split
    · exact h.binds (h.logEvent _) fun _ => h.check _
    · exact h.check _
  | assertWrapped => exact h.require _ _
  | assertNotWrapped => exact h.require _ _
  | assertTainted => exact h.require _ _
  | assertUntainted => exact h.require _ _
  | assertSomePropertyTainted => exact h.require _ _
  | assertPropertyTainted => exact h.binds (h.propertyTaint _ _) fun _ => h.require _ _
  | assertPropertyUntainted => exact h.binds (h.propertyTaint _ _) fun _ => h.require _ _
  | setSink =>
    exact h.binds (h.require _ _) fun _ => h.binds (h.registerSink _ _ _) fun _ => h.returns _
  | assertStringRangeTainted =>
    exact h.binds (h.range _ _) fun _ => h.binds (h.stringIndices _ _ _ _) fun _ => h.require _ _
  | assertStringRangeUntainted =>
    exact h.binds (h.range _ _) fun _ => h.binds (h.stringIndices _ _ _ _) fun _ => h.require _ _
  | assertArrayRangeTainted => exact h.binds (h.range _ _) fun _ => h.require _ _
  | assertArrayRangeUntainted => exact h.binds (h.range _ _) fun _ => h.require _ _
  | pushScope => exact h.push rfl
  | popScope => exact absurd rfl closes

/-- The property holds of the function, whatever its arguments are. -/
theorem run (h : ghost.Admits Good) (args : List Value) : Good Unit (ghost.run args) := by
  have effect : Good Unit (do
      ghost.effect args
      if (← get).settings.assertPassed && ghost.isAssertion then throw Fault.completed :
        HookM Unit) := by
    refine h.binds (h.effect args) fun _ => h.binds h.reads fun t => ?_
    split
    · exact h.fails trivial rfl
    · exact h.returns _
  unfold Ghost.run
  split
  · exact h.fails trivial rfl
  · exact effect

end Admits

/-- The relation admits every change that the function makes. -/
structure Allowed (R : Tracker → Tracker → Prop) (ghost : Ghost) : Prop where
  logs : ∀ t e, R t (t.logging e)
  sinks : ∀ t sinks, R t { t with sinks }
  scopes : ∀ t scope, scope.sink = t.scope.sink → R t { t with scope }
  reads : ∀ t v, R t { t with memory := (MemoryM.history v t.memory).2 }
  whole : ∀ tainted v, ghost.writes? = some tainted →
    Within R (HookM.onMemory (MemoryM.setTaint v tainted))
  property : ∀ tainted v key, ghost.writes? = some tainted →
    Within R (HookM.onMemory (CheckedM.setPropertyTaint v key tainted))

variable {R : Tracker → Tracker → Prop} [IsPreorder Tracker R] {ghost : Ghost}

theorem Allowed.admits (h : ghost.Allowed R) : ghost.Admits fun _ x => Within R x where
  returns := .pure_except
  binds := .bind_except
  reads := .get_except
  fails _ _ := .throw _
  logEvent e t := h.logs t e
  registerSink := HookM.within_registerSink h.logs h.sinks
  check v t := by
    rw [HookM.onMemory_apply, CheckedM.check, get_bind_apply]
    split
    · exact h.reads t v
    · exact refl_of R t
  whole := h.whole
  property := h.property
  push _ t := h.scopes t _ rfl
  pop _ args t := by
    unfold effect
    rw [get_bind_apply]
    dsimp only
    rcases closed : t.scope.pop with e | scope
    · exact refl_of R t
    · refine h.scopes t scope ?_
      unfold EvalScope.pop at closed
      split at closed <;> cases closed
      rfl

theorem within_run (h : ghost.Allowed R) (args : List Value) : Within R (ghost.run args) :=
  h.admits.run args

end Ghost

end ShadowTaint
