import ShadowTaint.Proofs.Deeds
import ShadowTaint.Proofs.Effects
import ShadowTaint.Proofs.Records
/-!
# Properties that last through hooks

A property of what is recorded about taint lasts through a hook as soon as it lasts through the step
that the hook takes. The hook before a call takes none: it notes the call in the histories of the
arguments, and it may run a ghost function.

## Main definitions

- `Memory.Inherits`: the property passes from one memory to another one.
- `Memory.Lasting`: neither bookkeeping nor notes in histories touch the property.
- `Memory.Outlasts`: nor does writing taint, or writing that there is none.

## Main statements

- `Hook.lasts`: the property lasts through any hook that it lasts through the step of.
-/

namespace ShadowTaint

open Memory Tracker

/-- The second memory has the property if the first one has it. -/
def Memory.Inherits (P : Memory → Prop) (m m' : Memory) : Prop := P m → P m'

instance (P : Memory → Prop) : IsPreorder Memory (Inherits P) where
  refl _ := id
  trans _ _ _ first second := second ∘ first

/-- Neither bookkeeping nor notes in histories touch the property. -/
structure Memory.Lasting (P : Memory → Prop) : Prop where
  quiet : ∀ {m m'}, m.Quiet m' → P m → P m'
  relabel : ∀ v label, Within (Inherits P) (MemoryM.relabel v label)

/-- The property lasts when taint is written, or that there is none. -/
structure Memory.Outlasts (P : Memory → Prop) (tainted : Bool) : Prop where
  whole : ∀ v, Within (Inherits P) (MemoryM.setTaint v tainted)
  property : ∀ v key, Within (Inherits P) (CheckedM.setPropertyTaint v key tainted)

variable {P : Memory → Prop}

theorem Memory.Lasting.history (lasting : Lasting P) (v : Value) :
    Within (Inherits P) (MemoryM.history v) :=
  fun _ => lasting.quiet ((Policy.NodesUsed.refl _).more 1).quiet

namespace Tracker

section Calling

variable {R : Memory → Memory → Prop} [IsPreorder Memory R]

/-- A ghost function changes the memory only by what it writes. -/
theorem allowed_follows {g : Ghost} (read : ∀ v, Within R (MemoryM.history v))
    (whole : ∀ tainted v, g.writes? = some tainted → Within R (MemoryM.setTaint v tainted))
    (property : ∀ tainted v key, g.writes? = some tainted →
      Within R (CheckedM.setPropertyTaint v key tainted)) : g.Allowed (Follows R) where
  logs t _ := ⟨rfl, rfl, refl_of R t.memory⟩
  sinks t _ := ⟨rfl, rfl, refl_of R t.memory⟩
  scopes t _ _ := ⟨rfl, rfl, refl_of R t.memory⟩
  reads t v := ⟨rfl, rfl, read v t.memory⟩
  whole tainted v written := HookM.follows_onMemory (.lift (whole tainted v written))
  property tainted v key written := HookM.follows_onMemory (property tainted v key written)

end Calling

theorem callPreBody_lasts (lasting : Lasting P) (c : Call) (native : Bool) {t : Tracker}
    (writes : ∀ g tainted, t.ghostOf? c = some g → g.writes? = some tainted → Outlasts P tainted) :
    Inherits P t.memory (callPreBody c native t).2.memory := by
  have quiet {α : Type} {x : CheckedM α} (calm : Calm Quiet x) :
      Within (Follows (Inherits P)) (HookM.onMemory x) :=
    HookM.follows_onMemory fun m => lasting.quiet (calm.within m)
  have checked := (within_checkCall lasting.relabel lasting.history c t).memory
  rcases checkCall_passes c t with ⟨t₁, passed, marks⟩ | ⟨f, t₁, refused, -⟩
  · rw [passed] at checked
    refine trans_of (Inherits P) checked ?_
    rcases ghost : t.ghostOf? c with _ | g
    · rw [callPreBody_of_real passed (by rw [ghostOf?_of_marks marks, ghost])]
      exact (quiet (calm_openCall _ c native) t₁).memory
    · have runs : Within (Follows (Inherits P)) (g.run c.args) :=
        Ghost.within_run (allowed_follows lasting.history
          (fun tainted v written => (writes g tainted ghost written).whole v)
          fun tainted v key written => (writes g tainted ghost written).property v key) _
      rw [callPreBody_of_called passed (by rw [ghostOf?_of_marks marks, ghost])]
      exact (within_enterGhost (quiet (CheckedM.calm_expectIdle _)) runs t₁).memory
  · rw [callPreBody_of_refused refused]
    rw [refused] at checked
    exact checked

end Tracker

/-- A property lasts through a hook that calls no ghost function which might end it, if it lasts
through the step that the hook takes. -/
theorem Hook.lasts (lasting : Lasting P) (h : Hook) {t : Tracker}
    (writes : ∀ c g tainted, h = .callPre c → t.ghostOf? c = some g → g.writes? = some tainted →
      Outlasts P tainted)
    (steps : ∀ d m, h.Does t d m → t.memory.Quiet m → P m → P (d.run t.settings.policies m).2)
    (before : P t.memory) : P (h.run t).2.memory := by
  by_cases other : ∀ c, h ≠ .callPre c
  · rcases h.idles_or_does other t with ⟨d, m, does⟩ | idles
    · obtain ⟨quiet, ends⟩ := does.run
      exact lasting.quiet ends.quiet (steps d m does quiet (lasting.quiet quiet before))
    · exact lasting.quiet idles.quiet before
  · obtain ⟨c, rfl⟩ : ∃ c, h = .callPre c := by simpa using other
    obtain ⟨c', native, t₀, t', same, logs, run, ended⟩ := run_callPre c t
    have called : t₀.ghostOf? c' = t.ghostOf? c := by
      rw [ghostOf?, ghostOf?, same, logs.ghosts, logs.memory]
    have body := callPreBody_lasts lasting c' native (t := t₀) fun g tainted ghost =>
      writes c g tainted rfl (called.symm.trans ghost)
    rw [run]
    show P t'.memory
    rw [ended.memory]
    refine lasting.quiet (quiet_ended _) (body ?_)
    rw [logs.memory]
    exact before

end ShadowTaint
