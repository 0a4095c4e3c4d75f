import ShadowTaint.Proofs.Memory
import ShadowTaint.Tracker.Basic
/-!
# What surrounds every hook

A hook logs, runs its body and ends in `Tracker.finish`. Of all that only the body matters for the
memory, but for one thing: when a hook ends, nothing is left behind for the next one.

## Main definitions

- `Tracker.Logs`: nothing is different but what was logged and written.
- `Tracker.Follows`: the settings and the ghost functions are the same, and the memories are
  related.

## Main statements

- `HookM.hook_of`: a hook on the memory does there what its body does.
- `HookM.follows_hook`: a hook stays within what its body stays within.
-/

namespace ShadowTaint

open Memory

/-- The memory when a hook ends: nothing is left behind for the next one. -/
def Memory.ended (m : Memory) : Memory :=
  { m with shadow := { m.shadow with context := .unset } }

namespace Tracker

/-- Nothing is different but what was logged and what was written to files. -/
structure Logs (t t' : Tracker) : Prop where
  settings : t'.settings = t.settings
  memory : t'.memory = t.memory
  sinks : t'.sinks = t.sinks
  ghosts : t'.ghosts = t.ghosts
  scope : t'.scope = t.scope
  reported : t'.reported = t.reported
  report : t'.report = t.report

namespace Logs

variable {t t' t'' : Tracker}

theorem refl (t : Tracker) : t.Logs t := ⟨rfl, rfl, rfl, rfl, rfl, rfl, rfl⟩

theorem trans (first : t.Logs t') (second : t'.Logs t'') : t.Logs t'' where
  settings := second.settings.trans first.settings
  memory := second.memory.trans first.memory
  sinks := second.sinks.trans first.sinks
  ghosts := second.ghosts.trans first.ghosts
  scope := second.scope.trans first.scope
  reported := second.reported.trans first.reported
  report := second.report.trans first.report

theorem logging (h : t.Logs t') (e : LogEvent) : t.Logs (t'.logging e) :=
  h.trans ⟨rfl, rfl, rfl, rfl, rfl, rfl, rfl⟩

theorem loggingIf (h : t.Logs t') (c : Prop) [Decidable c] (e : LogEvent) :
    t.Logs (if c then t'.logging e else t') := by
  split
  · exact h.logging e
  · exact h

end Logs

theorem logs_writeExport (t : Tracker) (format : Provenance.ExportFormat) (suffix : Option String)
    (path : Provenance.Node) : t.Logs (t.writeExport format suffix path) := by
  unfold writeExport
  dsimp only
  split
  · exact ⟨rfl, rfl, rfl, rfl, rfl, rfl, rfl⟩
  · exact (Logs.refl t).logging _

theorem logs_foldl {α : Type} {f : Tracker → α → Tracker} (step : ∀ (t : Tracker) a, t.Logs (f t a))
    (as : List α) (t : Tracker) : t.Logs (as.foldl f t) := by
  induction as generalizing t with
  | nil => exact .refl t
  | cons a rest ih => exact (step t a).trans (ih (f t a))

theorem logs_reportFinding (t : Tracker) (f : Finding) : t.Logs (t.reportFinding f) := by
  unfold reportFinding
  refine Logs.logging ?_ _
  exact logs_foldl (fun t format => logs_foldl (fun t p => logs_writeExport _ _ _ _) _ _) _ _

/-- A hook ends by clearing what was left behind; the rest is logging. -/
theorem logs_finish (t : Tracker) (hook : String) (fault : Option Fault) :
    Logs { t with memory := t.memory.ended } (t.finish hook fault) := by
  unfold finish
  dsimp only
  refine (Logs.loggingIf ?_ _ _).loggingIf _ _
  split
  · exact (Logs.refl _).trans (logs_reportFinding _ _)
  · exact .refl _

/-- The settings and the ghost functions are the same, and the memories are related. -/
structure Follows (R : Memory → Memory → Prop) (t t' : Tracker) : Prop where
  settings : t'.settings = t.settings
  ghosts : t'.ghosts = t.ghosts
  memory : R t.memory t'.memory

instance (R : Memory → Memory → Prop) [IsPreorder Memory R] : IsPreorder Tracker (Follows R) where
  refl t := ⟨rfl, rfl, refl_of R t.memory⟩
  trans _ _ _ first second := ⟨second.settings.trans first.settings,
    second.ghosts.trans first.ghosts, trans_of R first.memory second.memory⟩

theorem Logs.follows {R : Memory → Memory → Prop} [IsPreorder Memory R] {t t' : Tracker}
    (h : t.Logs t') : Follows R t t' where
  settings := h.settings
  ghosts := h.ghosts
  memory := by
    rw [h.memory]
    exact refl_of R t.memory

theorem Follows.mono {R S : Memory → Memory → Prop} {t t' : Tracker} (h : Follows R t t')
    (imp : ∀ m m', R m m' → S m m') : Follows S t t' :=
  ⟨h.settings, h.ghosts, imp _ _ h.memory⟩

end Tracker

open Tracker

namespace HookM

variable {α : Type} {R : Memory → Memory → Prop}

theorem onMemory_apply (action : CheckedM α) (t : Tracker) :
    onMemory action t = ((action t.memory).1, { t with memory := (action t.memory).2 }) := rfl

theorem follows_onMemory {action : CheckedM α} (h : Within R action) :
    Within (Follows R) (onMemory action) :=
  fun t => ⟨rfl, rfl, h t.memory⟩

theorem follows_logEvent [IsPreorder Memory R] (e : LogEvent) :
    Within (Follows R) (logEvent e) :=
  fun t => ⟨rfl, rfl, refl_of R t.memory⟩

/-- Registering adds a sink, and it logs. -/
theorem within_registerSink {Q : Tracker → Tracker → Prop} [IsPreorder Tracker Q]
    (logs : ∀ t e, Q t (t.logging e)) (sinks : ∀ t sinks, Q t { t with sinks }) (v : Value)
    (kind : SinkKind) (category : SinkCategory) : Within Q (registerSink v kind category) := by
  intro t
  unfold registerSink
  rw [get_bind_apply]
  rcases t.sinks.register? t.memory.heap v kind category with _ | added
  · exact refl_of Q t
  · exact trans_of Q (sinks t added) (logs _ _)

theorem follows_registerSink [IsPreorder Memory R] (v : Value) (kind : SinkKind)
    (category : SinkCategory) : Within (Follows R) (registerSink v kind category) :=
  within_registerSink (fun t _ => ⟨rfl, rfl, refl_of R t.memory⟩)
    (fun t _ => ⟨rfl, rfl, refl_of R t.memory⟩) v kind category

/-- A hook logs, runs its body and ends. -/
theorem hook_run (name : String) (operands : Tracker → List (String × String)) (body : HookM α)
    (t : Tracker) : ∃ t₀ t', t.Logs t₀ ∧ hook name operands body t = ((body t₀).1, t') ∧
      Logs { (body t₀).2 with memory := (body t₀).2.memory.ended } t' := by
  exact ⟨_, _, (Logs.refl t).loggingIf _ _, rfl, logs_finish _ _ _⟩

/-- A hook whose body works on the memory, in a way that no log can influence, does what the body
does there. -/
theorem hook_of (name : String) (operands : Tracker → List (String × String))
    (body : Tracker → CheckedM α) {t : Tracker} (same : ∀ t₀, t.Logs t₀ → body t₀ = body t)
    {r : Except Fault α} {m : Memory} (run : body t t.memory = (r, m)) :
    ∃ t', hook name operands (do onMemory (body (← get))) t = (r, t') ∧ t'.memory = m.ended ∧
      t'.settings = t.settings ∧ t'.ghosts = t.ghosts := by
  obtain ⟨t₀, t', logs, hooked, ended⟩ := hook_run name operands (do onMemory (body (← get))) t
  rw [get_bind_apply, onMemory_apply, same t₀ logs, logs.memory, run] at hooked ended
  exact ⟨t', hooked, ended.memory, ended.settings.trans logs.settings,
    ended.ghosts.trans logs.ghosts⟩

theorem memoryHook_of (name : String) (operands : Tracker → List (String × String))
    (body : Levels → CheckedM α) {t : Tracker} {r : Except Fault α} {m : Memory}
    (run : body t.settings.policies t.memory = (r, m)) :
    ∃ t', memoryHook name operands body t = (r, t') ∧ t'.memory = m.ended ∧
      t'.settings = t.settings ∧ t'.ghosts = t.ghosts :=
  hook_of name operands (fun t => body t.settings.policies)
    (fun _ logs => by rw [logs.settings]) run

/-- A hook stays within what its body stays within, as ending it does. -/
theorem follows_hook [IsPreorder Memory R] (ends : ∀ m, R m m.ended) (name : String)
    (operands : Tracker → List (String × String)) {body : HookM α}
    (h : Within (Follows R) body) : Within (Follows R) (hook name operands body) := by
  intro t
  obtain ⟨t₀, t', logs, run, ended⟩ := hook_run name operands body t
  have inner := trans_of (Follows R) logs.follows (h t₀)
  have rest : Follows R (body t₀).2 { (body t₀).2 with memory := (body t₀).2.memory.ended } :=
    ⟨rfl, rfl, ends _⟩
  rw [run]
  exact trans_of (Follows R) inner (trans_of (Follows R) rest ended.follows)

theorem follows_memoryHook [IsPreorder Memory R] (ends : ∀ m, R m m.ended) (name : String)
    (operands : Tracker → List (String × String)) {body : Levels → CheckedM α}
    (h : ∀ levels, Within R (body levels)) :
    Within (Follows R) (memoryHook name operands body) :=
  follows_hook ends name operands (.bind_except .get_except fun _ => follows_onMemory (h _))

end HookM

theorem Memory.keeps_ended (m : Memory) : m.Keeps m.ended :=
  (refl_of Keeps m).withShadow (fun _ _ h => h) (Nat.le_refl _) fun _ after => after

end ShadowTaint
