import ShadowTaint.Proofs.Effects
import ShadowTaint.Proofs.Steps
/-!
# Outside of the memory

Most of what a hook does it does in the memory, and it logs. What else there is in a state changes at few
places: where a function is made a sink, where a sink is reported, and in two ghost functions. So a
relation between states that does not look at the memory and the log is kept by a hook if it is kept at
these places.

## Main definitions

- `Tracker.Outside`: the relation does not look at the memory and the log.

## Main statements

- `Tracker.Outside.run`: a hook stays within such a relation.
-/

namespace ShadowTaint

namespace Tracker

/-- Passing sinks on changes something only if it makes a function a sink. -/
theorem within_launderSinks {R : Tracker → Tracker → Prop} [IsPreorder Tracker R]
    (registers : ∀ v kind category, Within R (HookM.registerSink v kind category)) (c : Call)
    (result : Value) : Within R (launderSinks c result) := by
  refine .bind_except .get_except fun t => ?_
  dsimp only
  split
  · split
    · exact .pure_except _
    · exact .bind_except (registers _ _ _) fun _ => .pure_except _
  · exact .pure_except _

/-- The relation holds between states that differ in nothing but the memory, what was logged and what was
written to files. -/
structure Outside (R : Tracker → Tracker → Prop) : Prop where
  logs : ∀ {t t' : Tracker}, t.Logs t' → R t t'
  memory : ∀ (t : Tracker) (m : Memory), R t { t with memory := m }

namespace Outside

variable {R : Tracker → Tracker → Prop} [IsPreorder Tracker R] {α : Type}

omit [IsPreorder Tracker R] in
theorem onMemory (h : Outside R) (action : CheckedM α) : Within R (HookM.onMemory action) :=
  fun t => h.memory t _

omit [IsPreorder Tracker R] in
theorem logEvent (h : Outside R) (e : LogEvent) : Within R (HookM.logEvent e) :=
  fun t => h.logs ((Logs.refl t).logging e)

/-- A hook logs, runs its body and ends. -/
theorem hook (h : Outside R) (name : String) (operands : Tracker → List (String × String))
    {body : HookM α} (within : Within R body) : Within R (HookM.hook name operands body) := by
  intro t
  obtain ⟨t₀, t', begun, run, ended⟩ := HookM.hook_run name operands body t
  rw [run]
  exact trans_of R (trans_of R (h.logs begun) (within t₀)) (trans_of R (h.memory _ _) (h.logs ended))

theorem memoryHook (h : Outside R) (name : String) (operands : Tracker → List (String × String))
    (body : Levels → CheckedM α) : Within R (HookM.memoryHook name operands body) :=
  h.hook name operands (.bind_except .get_except fun _ => h.onMemory _)

/-- The check before a call works on the memory, and it may report a sink. -/
theorem checkCall (h : Outside R) (reports : ∀ t name, R t (reportSink t name)) (c : Call) :
    Within R (checkCall c) := by
  intro t
  rw [checkCall_apply]
  split
  · split
    · exact trans_of R (h.memory t _) (reports _ _)
    · exact h.memory t _
  · exact h.memory t _

theorem enterCall (h : Outside R) (ghosts : ∀ (ghost : Ghost) (args : List Value), Within R (ghost.run args))
    (c : Call) (native : Bool) : Within R (enterCall c native) := by
  refine .bind_except .get_except fun t => ?_
  split
  · exact h.onMemory _
  · exact .bind_except (h.onMemory _) fun _ => .bind_except (ghosts _ _) fun _ => .pure_except _

theorem tagImport (h : Outside R) (c : Call) (result : Value) : Within R (tagImport c result) := by
  refine .bind_except .get_except fun t => ?_
  dsimp only
  split
  · exact .bind_except (h.logEvent _) fun _ => h.onMemory _
  · exact .pure_except _

/-- What the hook after a call does once it has looked at the result. -/
theorem closing (h : Outside R) (c : Call) (result : Value) (native : Bool) (t : Tracker) :
    Within R (HookM.onMemory (closeCall c result t.settings.policies) >>=
      concludeCall c native t : HookM (Call × Value)) :=
  .bind_except (h.onMemory _) (within_concludeCall (fun _ _ _ => h.onMemory _) h.tagImport c native t)

/-- A hook stays within the relation if making a function a sink does, and, for the hook before a call, what
that hook does. -/
theorem run (h : Outside R)
    (registers : ∀ v kind category, Within R (HookM.registerSink v kind category)) (hook : Hook)
    (before : ∀ c, hook = .callPre c → ∀ c native, Within R (callPreBody c native)) :
    Within R hook.run := by
  have step {α β : Type} {x : HookM α} {y : α → β} (hx : Within R x) :
      Within R (x >>= fun a => pure (y a) : HookM β) :=
    .bind_except hx fun _ => .pure_except _
  cases hook with
  | callPre c =>
    exact step (.bind_except .get_except fun t => h.hook _ _ (before c rfl _ _))
  | callPost c result =>
    exact step (.bind_except .get_except fun t => h.hook _ _ (within_callPostBody _ _ _
      (within_launderSinks registers _ _) (fun _ => h.onMemory _) (fun _ _ _ => h.onMemory _) h.tagImport))
  | conditional v =>
    exact step (.bind_except (h.memoryHook _ _ _) fun raw =>
      .bind_except (fun t => h.memory t _) fun _ => .pure_except _)
  | write target v =>
    exact step (h.hook _ _ (.bind_except .get_except fun _ => h.onMemory _))
  | codePre code internal =>
    exact step (h.hook _ _ (.bind_except .get_except fun _ => h.onMemory _))
  | codePost code =>
    exact step (h.hook _ _ (.bind_except .get_except fun _ => h.onMemory _))
  | _ => exact step (h.memoryHook _ _ _)

end Outside

end Tracker

end ShadowTaint
