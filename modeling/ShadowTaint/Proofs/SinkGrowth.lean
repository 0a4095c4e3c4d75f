import ShadowTaint.Proofs.Aftermath
import ShadowTaint.Proofs.Persistence
import ShadowTaint.Proofs.Scopes
/-!
# Sinks are never given up

A function becomes a sink when the program registers it, or when it comes out of a call that received
a sink. No hook takes a sink back: patterns are only added, and only such as describe a single
function. A pattern that describes functions by name keeps describing them, because only functions
without a name are given one.

## Main definitions

- `Sinks.Extends`: the sinks of one registry are sinks of another one.
- `Session.Rebuilds`: the host changes what some object is.

## Main statements

- `Hook.extends`: whatever the state is, a hook extends the sinks.
- `Session.isSink_after`: a sink stays one through a hook, and through what the host does on the heap.
-/

namespace ShadowTaint

open Memory

/-- The function is a sink in the current state. -/
def Tracker.IsSink (t : Tracker) (v : Value) : Prop := t.sinks.isSink t.memory.heap v = true

namespace SinkPattern

/-- The pattern does not recognise functions by an empty name. -/
def Named (p : SinkPattern) : Prop := p.target ≠ .native ""

/-- What a pattern describes it goes on to describe. -/
theorem describes_of_evolves {p : SinkPattern} (named : p.Named) {h h' : Heap}
    (evolves : h.Evolves h') {v : Value} (described : p.describes h v = true) :
    p.describes h' v = true := by
  unfold describes at described ⊢
  cases target : p.target with
  | function id =>
    rw [target] at described
    exact described
  | builtin b =>
    simp only [target, Option.any_eq_true] at described ⊢
    obtain ⟨f, found, same⟩ := described
    obtain ⟨f', found', -, builtin, -⟩ := evolves.function? found
    exact ⟨f', found', by rwa [builtin]⟩
  | native name =>
    simp only [target, Option.any_eq_true, Bool.and_eq_true, beq_iff_eq] at described ⊢
    obtain ⟨f, found, ⟨native, plain⟩, same⟩ := described
    obtain ⟨f', found', implementation, builtin, kept⟩ := evolves.function? found
    have nonempty : f.name ≠ "" := by
      intro empty
      exact named (by rw [target, ← same, empty])
    refine ⟨f', found', ⟨?_, by rwa [builtin]⟩, by rw [kept nonempty, same]⟩
    rwa [Function.isNative, implementation]

end SinkPattern

namespace Sinks

variable {s s' : Sinks} {h h' : Heap} {v : Value}

/-- Patterns of single functions were added, and no function has lost its own. -/
structure Extends (s s' : Sinks) : Prop where
  patterns : ∃ added, s'.patterns = s.patterns ++ added ∧ ∀ p ∈ added, p.isFunction = true
  functions : ∀ id, (s.byFunction.get? id).isSome = true → (s'.byFunction.get? id).isSome = true

instance : IsPreorder Sinks Extends where
  refl s := ⟨⟨[], (List.append_nil _).symm, fun _ hp => nomatch hp⟩, fun _ h => h⟩
  trans s₁ s₂ s₃ first second := by
    obtain ⟨added, eq, single⟩ := first.patterns
    obtain ⟨added', eq', single'⟩ := second.patterns
    refine ⟨⟨added ++ added', by rw [eq', eq, List.append_assoc], fun p hp => ?_⟩,
      fun id h => second.functions id (first.functions id h)⟩
    rcases List.mem_append.mp hp with hp | hp
    · exact single p hp
    · exact single' p hp

/-- A value is a sink if it has a pattern of its own or one of the others describes it. -/
theorem isSink_iff : s.isSink h v = true ↔
    (∃ id, v.object? = some id ∧ (s.byFunction.get? id).isSome = true) ∨
      ∃ p ∈ s.patterns, p.isFunction = false ∧ p.describes h v = true := by
  have described : (s.patterns.find? fun p => !p.isFunction && p.describes h v).isSome = true ↔
      ∃ p ∈ s.patterns, p.isFunction = false ∧ p.describes h v = true := by
    simp only [List.find?_isSome, Bool.and_eq_true, Bool.not_eq_true']
  rw [← described, isSink, find?]
  rcases v.object? with _ | id
  · simp
  · rcases own : s.byFunction.get? id with _ | p <;> simp [own]

/-- A sink is one in every later registry and on every later heap. -/
theorem Extends.isSink (ext : s.Extends s') (named : ∀ p ∈ s.patterns, p.Named)
    (evolves : h.Evolves h') (sink : s.isSink h v = true) : s'.isSink h' v = true := by
  rw [isSink_iff] at sink ⊢
  rcases sink with ⟨id, object, own⟩ | ⟨p, hp, shared, described⟩
  · exact .inl ⟨id, object, ext.functions id own⟩
  · obtain ⟨added, eq, -⟩ := ext.patterns
    refine .inr ⟨p, ?_, shared, SinkPattern.describes_of_evolves (named p hp) evolves described⟩
    rw [eq]
    exact List.mem_append_left _ hp

/-- Where no pattern of one registry recognises functions by an empty name, none of the other does. -/
theorem Extends.named (ext : s.Extends s') (named : ∀ p ∈ s.patterns, p.Named) :
    ∀ p ∈ s'.patterns, p.Named := by
  intro p hp
  obtain ⟨added, eq, single⟩ := ext.patterns
  rw [eq] at hp
  rcases List.mem_append.mp hp with hp | hp
  · exact named p hp
  · intro target
    have function := single p hp
    simp [SinkPattern.isFunction, target] at function

theorem extends_add {p : SinkPattern} {id : ObjectId} (single : p.target = .function id) :
    s.Extends (s.add p) where
  patterns := ⟨[p], rfl, fun q hq => by simp [List.mem_singleton.mp hq, SinkPattern.isFunction, single]⟩
  functions other own := by
    simp only [add, single, Table.get?_insert]
    split
    · rfl
    · exact own

theorem isSink_add {p : SinkPattern} {id : ObjectId} (single : p.target = .function id) :
    (s.add p).isSink h (.object id) = true :=
  isSink_iff.mpr (.inl ⟨id, rfl, by simp [add, single, Table.get?_insert]⟩)

end Sinks

namespace Tracker

/-- The sinks of the first state are sinks of the second one. -/
def ExtendsSinks (t t' : Tracker) : Prop := t.sinks.Extends t'.sinks

instance : IsPreorder Tracker ExtendsSinks where
  refl t := refl_of Sinks.Extends t.sinks
  trans _ _ _ first second := trans_of Sinks.Extends first second

theorem extendsSinks_of_eq {t t' : Tracker} (same : t'.sinks = t.sinks) : t.ExtendsSinks t' := by
  rw [ExtendsSinks, same]
  exact refl_of Sinks.Extends _

end Tracker

open Tracker

namespace HookM

/-- Registering extends the sinks, and a registered object is a sink. -/
theorem registerSink_sinks (v : Value) (kind : SinkKind) (category : SinkCategory) (t : Tracker) :
    t.ExtendsSinks (registerSink v kind category t).2 ∧
      ∀ id, v = .object id → (registerSink v kind category t).2.IsSink v := by
  unfold registerSink
  rw [get_bind_apply]
  rcases registered : t.sinks.register? t.memory.heap v kind category with _ | sinks
  · refine ⟨extendsSinks_of_eq rfl, ?_⟩
    rintro id rfl
    unfold Sinks.register? at registered
    rcases sink : t.sinks.isSink t.memory.heap (.object id)
    · simp [Value.object?, sink] at registered
    · exact sink
  · obtain ⟨p, id, object, single, eq⟩ : ∃ (p : SinkPattern) (id : ObjectId),
        v.object? = some id ∧ p.target = .function id ∧ sinks = t.sinks.add p := by
      unfold Sinks.register? at registered
      split at registered
      · cases registered
      · rename_i id object
        split at registered
        · cases registered
        · cases registered
          exact ⟨_, id, object, rfl, rfl⟩
    rw [eq]
    refine ⟨Sinks.extends_add single, ?_⟩
    rintro other rfl
    cases object
    exact Sinks.isSink_add single

theorem extends_registerSink (v : Value) (kind : SinkKind) (category : SinkCategory) :
    Within ExtendsSinks (registerSink v kind category) := fun t => (registerSink_sinks v kind category t).1

end HookM

namespace Tracker

theorem outside_extendsSinks : Outside ExtendsSinks :=
  ⟨fun logs => extendsSinks_of_eq logs.sinks, fun _ _ => extendsSinks_of_eq rfl⟩

theorem extends_reportSink (t : Tracker) (name : String) : t.ExtendsSinks (t.reportSink name) := by
  unfold reportSink
  split
  · exact refl_of ExtendsSinks t
  · exact extendsSinks_of_eq rfl

/-- A ghost function extends the sinks or leaves them alone. -/
theorem admits_extends (ghost : Ghost) : ghost.Admits fun _ x => Within ExtendsSinks x where
  returns := .pure_except
  binds := .bind_except
  reads := .get_except
  fails _ _ := .throw _
  logEvent _ _ := extendsSinks_of_eq rfl
  registerSink := HookM.extends_registerSink
  check _ := outside_extendsSinks.onMemory _
  whole _ _ _ := outside_extendsSinks.onMemory _
  property _ _ _ _ := outside_extendsSinks.onMemory _
  push _ _ := extendsSinks_of_eq rfl
  pop _ args t := by
    unfold Ghost.effect
    rw [get_bind_apply]
    dsimp only
    rcases t.scope.pop with e | scope
    · exact refl_of ExtendsSinks t
    · exact extendsSinks_of_eq rfl

end Tracker

/-- Whatever the state is and whether it succeeds or fails, a hook extends the sinks. -/
theorem Hook.extends (h : Hook) : Within ExtendsSinks h.run := by
  refine outside_extendsSinks.run HookM.extends_registerSink h fun _ _ c native => ?_
  rw [callPreBody_eq]
  exact .bind_except (outside_extendsSinks.checkCall extends_reportSink c) fun _ =>
    outside_extendsSinks.enterCall (fun ghost args => (admits_extends ghost).run args) c native

/-- In every reachable state the built-in sinks are sinks still. -/
theorem Reachable.extends_builtIn {t : Tracker} (h : Reachable t) :
    Sinks.builtIn.Extends t.sinks := by
  induction h with
  | start settings heap => exact refl_of Sinks.Extends _
  | hook h _ ih => exact trans_of Sinks.Extends ih (h.extends _)
  | host heap _ ih => exact ih

/-- No pattern recognises functions by an empty name. -/
theorem Reachable.named {t : Tracker} (h : Reachable t) : ∀ p ∈ t.sinks.patterns, p.Named := by
  have builtIn : ∀ p ∈ Sinks.builtIn.patterns, p.target ≠ .native "" := by decide
  exact h.extends_builtIn.named builtIn

namespace Session

/-- The host makes something else of an object: it takes it away, turns it into one of another kind, or
gives a function another implementation or another name. -/
def Rebuilds (s : Session) : Event → Prop
  | .hook _ => False
  | .host heap => ¬ s.tracker.memory.heap.Evolves heap

/-- A sink stays one through a hook, and through what the host does on the heap. -/
theorem isSink_after {s : Session} (reachable : Reachable s.tracker) {v : Value}
    (sink : s.tracker.IsSink v) {e : Event} (spared : ¬ s.Rebuilds e) :
    (s.after e).tracker.IsSink v := by
  cases e with
  | hook h =>
    exact (h.extends s.tracker).isSink reachable.named (h.follows s.tracker).memory.evolves sink
  | host heap =>
    exact (refl_of Sinks.Extends s.tracker.sinks).isSink reachable.named
      (Classical.not_not.mp spared) sink

end Session

end ShadowTaint
