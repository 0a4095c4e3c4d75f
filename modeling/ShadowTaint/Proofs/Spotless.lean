import Mathlib.Data.List.TakeWhile
import ShadowTaint.Proofs.Deeds
import ShadowTaint.Proofs.Records
import ShadowTaint.Proofs.Scopes
import ShadowTaint.Proofs.Sessions
/-!
# No taint from nothing

Taint enters a run through four ghost functions: those that taint a value, a property or a range of
characters, and the one that opens a scope in which everything written is tainted. Where none of them
is called, no rule makes up taint: every rule that finds nothing tainted records nothing tainted.

Strings that are tracked character by character are left out. Their rule reads taint off the code
points of a second run, and the analysed program may have such code points in its own strings.

## Main definitions

- `Memory.Spotless`: nothing that is recorded is tainted.
- `Harmless`: an action keeps an invariant and finds nothing.
- `Ghost.taints`, `Session.Sources`: the ghost functions through which taint enters, and the calls of
  them.

## Main statements

- `Deed.harmless`: no step of a hook makes up taint.
- `Hook.harmless`: nor does a hook, unless it calls one of the four.
- `Session.untainted_of_sourceless`: nor does a run.
-/

namespace ShadowTaint

open Memory Tracker

/-- Nothing that is recorded is tainted. -/
def Memory.Spotless (m : Memory) : Prop :=
  ∀ key e, m.shadow.entries.get? key = some e → e.isTainted = false

namespace Memory.Spotless

variable {m m' : Memory}

theorem quiet (h : m.Spotless) (quiet : m.Quiet m') : m'.Spotless := by
  intro key e stored
  rw [quiet.entries] at stored
  exact h key e stored

theorem nodesUsed (h : m.Spotless) (used : Policy.NodesUsed m m') : m'.Spotless := h.quiet used.quiet

/-- A further entry that is untainted itself. -/
theorem records (h : m.Spotless) {v : Value} {tainted : Bool} {label : String}
    {sources : List Value} (records : m.Records m' v tainted label sources)
    (clean : tainted = false) : m'.Spotless := by
  obtain ⟨e, isTainted, -, entries⟩ := records.get?
  intro key e' stored
  rw [entries] at stored
  split at stored
  · cases stored
    exact isTainted.trans clean
  · exact h key e' stored

section Queries

theorem stored? (h : m.Spotless) {v : Value} {e : TaintEntry} (stored : m.stored? v = some e) :
    e.isTainted = false := by
  unfold Memory.stored? ShadowState.stored? at stored
  obtain ⟨key, -, found⟩ := Option.bind_eq_some_iff.mp stored
  exact h key e found

theorem taintBit (h : m.Spotless) (v : Value) : m.taintBit v = false := by
  unfold Memory.taintBit
  rcases stored : m.stored? v with _ | e
  · rfl
  · exact ((e.isTainted_eq_false_iff).mp (h.stored? stored)).1

theorem chars (h : m.Spotless) {v : Value} {map : CharMap}
    (stored : (m.stored? v).bind (·.chars) = some map) : map.any = false := by
  obtain ⟨e, stored, chars⟩ := Option.bind_eq_some_iff.mp stored
  exact map.any_eq_false_iff.mpr ((e.isTainted_eq_false_iff.mp (h.stored? stored)).2 map chars)

theorem anyProps (h : m.Spotless) (v : Value) : m.anyProps v = false := by
  unfold Memory.anyProps
  rcases stored : (m.stored? v).bind (·.chars) with _ | map
  · simp [h.taintBit]
  · exact h.chars stored

/-- Where nothing is tainted not everything is, since a value without members does not count. -/
theorem allProps (h : m.Spotless) (v : Value) : m.allProps v = false := by
  unfold Memory.allProps
  rcases stored : (m.stored? v).bind (·.chars) with _ | map
  · rcases m.members v with _ | ⟨first, rest⟩
    · rfl
    · simp [h.taintBit]
  · have clean := (map.any_eq_false_iff.mp (h.chars stored)).1
    show map.all = false
    rw [CharMap.all, clean, Bool.false_and]

theorem isTainted (h : m.Spotless) (v : Value) : m.isTainted v = false := by
  rw [Memory.isTainted, h.taintBit, h.anyProps, Bool.or_false]

theorem taintAny (h : m.Spotless) (v : Value) : m.taintAny v = false := by
  rw [Memory.taintAny, h.taintBit, h.anyProps, Bool.and_false, Bool.or_false]

theorem grain (h : m.Spotless) (grain : Grain) (v : Value) : grain.isTainted m v = false := by
  cases grain with
  | imprecise => exact h.isTainted v
  | precise => exact h.taintBit v

/-- The entry of a value, whether it is recorded or not. -/
theorem ownTaint (h : m.Spotless) (v : Value) : m.ownTaint v = false := by
  rcases stored : m.stored? v with _ | e
  · exact ownTaint_of_none stored
  · exact (ownTaint_of_stored stored).trans (h.stored? stored)

end Queries

section Rules

open MemoryM

theorem getField (h : m.Spotless) (grain : Grain) (ops : Operands) :
    (ObjectRule.getField grain ops m).2.Spotless := by
  rcases ObjectRule.records_getField grain ops m with ⟨known, stored, recorded⟩ | ⟨-, recorded⟩
  · refine h.records recorded ?_
    have untainted := h.stored? stored
    rw [TaintEntry.isTainted, Bool.or_eq_false_iff] at untainted
    rw [h.grain, h.grain, untainted.2]
    rfl
  · exact h.records recorded (h.grain grain _)

theorem binary (h : m.Spotless) (grain : Grain) (op : String) (ops : Operands) :
    (ObjectRule.binary grain op ops m).2.Spotless :=
  h.records (ObjectRule.records_binary grain op ops m) (by rw [h.grain, h.grain]; rfl)

theorem unary (h : m.Spotless) (grain : Grain) (operand result : Value) :
    (ObjectRule.unary grain operand result m).2.Spotless :=
  h.records (ObjectRule.records_unary grain operand result m) (h.grain grain _)

theorem call (h : m.Spotless) (receiver : Option Grain) (c : NativeCall) :
    (ObjectRule.call receiver c m).2.Spotless := by
  have rule := ObjectRule.records_call receiver c m
  rw [if_neg, if_neg] at rule
  · exact h.nodesUsed rule
  · simp [h.taintBit]
  · cases receiver <;> simp [h.grain, h.allProps]

theorem taintReceiver (h : m.Spotless) (label : String) (c : NativeCall) :
    (ContainerRule.taintReceiver label c m).2.Spotless := by
  have rule := ContainerRule.records_taintReceiver label c m
  rw [if_neg (by simp [h.isTainted])] at rule
  rwa [rule]

theorem taintRead (h : m.Spotless) (label : String) (c : NativeCall) :
    (ContainerRule.taintRead label c m).2.Spotless :=
  h.records (ContainerRule.records_taintRead label c m) (by rw [h.taintBit, h.taintBit, h.anyProps]; rfl)

theorem push (h : m.Spotless) (c : NativeCall) : (ArrayRule.push c m).2.Spotless := by
  have rule := (ArrayRule.records_push c m).2
  rw [if_neg (by simp [h.taintBit])] at rule
  rwa [rule]

theorem join (h : m.Spotless) (c : NativeCall) : (ArrayRule.join c m).2.Spotless := by
  have rule := ArrayRule.records_join c m
  split at rule
  · refine h.records rule.2 (List.any_eq_false.mpr fun b hb tainted => ?_)
    obtain rfl : b = true := tainted
    obtain ⟨v, -, own⟩ := ArrayRule.ownTaint_of_joinedBits hb
    cases (h.ownTaint v).symm.trans own
  · exact h.nodesUsed rule.2

theorem mapElement (h : m.Spotless) (pair : Value × Value) :
    (ArrayRule.mapElement false pair m).2.Spotless := by
  have rule := ArrayRule.records_mapElement false pair m
  split at rule
  · exact h.nodesUsed rule
  · exact h.records rule (h.isTainted _)

/-- Each element is recorded in a memory in which nothing is tainted still. -/
theorem mapElements (h : m.Spotless) (pairs : List (Value × Value)) :
    (pairs.forM (ArrayRule.mapElement false) m).2.Spotless := by
  induction pairs generalizing m with
  | nil => exact h
  | cons pair rest ih => exact ih (h.mapElement pair)

theorem mapped (h : m.Spotless) (c : NativeCall) : (ArrayRule.mapped c m).2.Spotless := by
  rw [ArrayRule.mapped_apply, h.taintBit]
  split
  · exact h.mapElements _
  · exact h

theorem reduced (h : m.Spotless) (c : NativeCall) : (ArrayRule.reduced c m).2.Spotless := by
  have clean (vs : List Value) : ArrayRule.fromFirstTainted m false vs = [] :=
    List.dropWhile_eq_nil_iff.mpr fun v _ => by rw [h.isTainted]; rfl
  have rule := (ArrayRule.records_reduced c m).2
  split at rule
  · rwa [rule]
  · exact h.records rule (by rw [h.taintBit, clean]; rfl)

theorem arrayModel (h : m.Spotless) {grain : Grain} {name : String}
    {model : NativeCall → MemoryM Bool} (found : ArrayRule.model? grain name = some model)
    (c : NativeCall) : (model c m).2.Spotless := by
  unfold ArrayRule.model? at found
  split at found <;> cases found
  · exact h.push c
  · exact h.join c
  · exact h.mapped c
  · exact h.reduced c
  · exact h.reduced c

theorem containerModel (h : m.Spotless) {kind : Container} {grain : Grain} {name : String}
    {model : NativeCall → MemoryM Unit} (found : ContainerRule.model? kind grain name = some model)
    (c : NativeCall) : (model c m).2.Spotless := by
  unfold ContainerRule.model? at found
  split at found <;> cases found
  · exact h.taintReceiver _ c
  · exact h.taintRead _ c
  · exact h.taintReceiver _ c
  · exact h.taintRead _ c
  all_goals exact h

theorem containerCall (h : m.Spotless) (levels : Levels) (kind : Container) (grain : Grain)
    (c : NativeCall) : (ContainerRule.call levels kind grain c m).2.Spotless := by
  unfold ContainerRule.call
  rw [bind_apply, get_apply]
  dsimp only
  rcases found : ContainerRule.model? kind grain (m.functionName c.f) with _ | model
  · dsimp only
    split
    · rcases found : ArrayRule.model? grain (m.functionName c.f) with _ | model
      · exact h.call _ c
      · dsimp only
        rw [bind_apply]
        split
        · exact h.arrayModel found c
        · exact (h.arrayModel found c).call _ c
    · exact h.call _ c
  · exact h.containerModel found c

end Rules

end Memory.Spotless

/-- The action keeps the invariant, whether or not it fails, and it finds nothing. -/
def Harmless {σ α : Type} (P : σ → Prop) (x : ExceptT Fault (StateM σ) α) : Prop :=
  ∀ s, P s → P (x s).2 ∧ ∀ f, (x s).1 ≠ .error (.finding f)

namespace Harmless

variable {σ α β : Type} {P : σ → Prop}

protected theorem pure (a : α) : Harmless P (pure a : ExceptT Fault (StateM σ) α) :=
  fun _ h => ⟨h, nofun⟩

protected theorem throw {e : Fault} (silent : e.Silent) :
    Harmless P (throw e : ExceptT Fault (StateM σ) α) := by
  intro s h
  refine ⟨h, fun f found => ?_⟩
  cases found
  cases silent

protected theorem lift {x : StateM σ α} (kept : ∀ s, P s → P (x s).2) :
    Harmless P (liftM x : ExceptT Fault (StateM σ) α) := fun s h => ⟨kept s h, nofun⟩

protected theorem bind {x : ExceptT Fault (StateM σ) α} {f : α → ExceptT Fault (StateM σ) β}
    (hx : Harmless P x) (hf : ∀ a, Harmless P (f a)) : Harmless P (x >>= f) := by
  intro s h
  obtain ⟨kept, silent⟩ := hx s h
  rcases run : x s with ⟨e | a, s'⟩ <;> rw [run] at kept silent
  · rw [bind_apply_error run]
    refine ⟨kept, fun g found => ?_⟩
    cases found
    exact silent g rfl
  · rw [bind_apply_ok run]
    exact hf a s' kept

/-- What follows a look at the state may rely on the invariant of what it has seen. -/
theorem get_bind {f : σ → ExceptT Fault (StateM σ) β} (h : ∀ s, P s → Harmless P (f s)) :
    Harmless P (get >>= f) := by
  intro s hs
  rw [get_bind_apply]
  exact h s hs s hs

protected theorem forM {f : α → ExceptT Fault (StateM σ) PUnit} (hf : ∀ a, Harmless P (f a))
    (l : List α) : Harmless P (l.forM f) := by
  induction l with
  | nil => exact .pure _
  | cons a l ih => exact .bind (hf a) fun _ => ih

theorem of_calm {R : σ → σ → Prop} {x : ExceptT Fault (StateM σ) α} (calm : Calm R x)
    (kept : ∀ s s', R s s' → P s → P s') : Harmless P x := by
  intro s h
  refine ⟨kept _ _ (calm.within s) h, fun f found => ?_⟩
  cases calm.raises s (.finding f) (x s).2 (Prod.ext found rfl)

end Harmless

/-- Where nothing is tainted, bookkeeping is harmless. -/
theorem Calm.harmless {α : Type} {x : CheckedM α} (calm : Calm Quiet x) :
    Harmless Memory.Spotless x := .of_calm calm fun _ _ quiet h => h.quiet quiet

namespace Policy

variable {policy : Policy} (plain : policy ≠ .string) (levels : Levels) {m : Memory}

include plain

theorem spotless_getField (h : m.Spotless) (ops : Operands) :
    (policy.getField levels ops m).2.Spotless := by
  cases policy with
  | string => exact absurd rfl plain
  | _ => exact h.getField _ ops

theorem spotless_binary (h : m.Spotless) (op : String) (ops : Operands) :
    (policy.binary levels op ops m).2.Spotless := by
  cases policy with
  | string => exact absurd rfl plain
  | _ => exact h.binary _ op ops

theorem spotless_call (h : m.Spotless) (c : NativeCall) : (policy.call levels c m).2.Spotless := by
  cases policy with
  | string => exact absurd rfl plain
  | container kind grain => exact h.containerCall levels kind grain c
  | object grain => exact h.call _ c
  | global => exact h.call _ c
  | lodash => exact h.call _ c

end Policy

/-- An untainted value may be stored anywhere. -/
theorem Policy.harmless_putField (policy : Policy) (levels : Levels) (ops : Operands) :
    Harmless Memory.Spotless (policy.putField levels ops) := by
  have object (grain : Grain) : Harmless Memory.Spotless (ObjectRule.putField grain ops) := by
    intro m h
    have passes : ObjectRule.checkPollution ops m = (.ok (), m) := by
      unfold ObjectRule.checkPollution
      rw [get_bind_apply, h.isTainted, if_neg (by simp)]
      rfl
    rcases ObjectRule.records_putField grain ops m with
      ⟨f, m', refused, -, -⟩ | ⟨-, run⟩ | ⟨m', -, -, run, recorded⟩
    · rw [passes] at refused
      cases refused
    · rw [run]
      exact ⟨h, nofun⟩
    · rw [run]
      exact ⟨h.records recorded (by rw [h.isTainted, h.isTainted]; rfl), nofun⟩
  cases policy with
  | global =>
    refine .get_bind fun m h => ?_
    rw [h.taintBit, if_neg Bool.false_ne_true]
    exact .pure _
  | _ => exact object _

theorem Tracker.harmless_checkCode (code : Value) (sink : Bool) (maxLength : Nat) :
    Harmless Memory.Spotless (checkCode code sink maxLength) := by
  have noted : Harmless Memory.Spotless
      (liftM (MemoryM.relabel code evalLabel) : CheckedM Unit) :=
    .lift fun m h => h.records (MemoryM.records_relabel code evalLabel m) (h.ownTaint code)
  refine .bind noted fun _ => .get_bind fun m h => ?_
  rw [h.isTainted, Bool.and_false, if_neg Bool.false_ne_true]
  exact .pure _

namespace Deed

/-- The step has to do with values that are not tracked character by character, and with no open
scope. -/
def Plain : Deed → Prop
  | .write _ => False
  | .read policy _ | .binary policy _ _ | .native policy _ => policy ≠ .string
  | .store .. | .unary .. | .evaluate .. => True

/-- No rule makes up taint. -/
theorem harmless (levels : Levels) {d : Deed} (plain : d.Plain) :
    Harmless Memory.Spotless (d.run levels) := by
  cases d with
  | write v => exact plain.elim
  | read policy ops => exact .lift fun m h => policy.spotless_getField plain levels h ops
  | store policy ops => exact policy.harmless_putField levels ops
  | binary policy op ops => exact .lift fun m h => policy.spotless_binary plain levels h op ops
  | unary policy operand result =>
    exact .lift fun m h => h.unary _ operand result
  | native policy c => exact .lift fun m h => policy.spotless_call plain levels h c
  | evaluate code sink maxLength => exact harmless_checkCode code sink maxLength

end Deed

/-- Nothing that is recorded is tainted, no scope is open, and strings are not tracked character by
character. -/
structure Tracker.Spotless (t : Tracker) : Prop where
  memory : t.memory.Spotless
  closed : t.scope.depth = 0
  plain : t.settings.policies.precision .string ≠ .precise

namespace Harmless

variable {α : Type}

theorem onMemory {action : CheckedM α} (h : Harmless Memory.Spotless action) :
    Harmless Tracker.Spotless (HookM.onMemory action) := by
  intro t spotless
  obtain ⟨kept, silent⟩ := h t.memory spotless.memory
  exact ⟨⟨kept, spotless.closed, spotless.plain⟩, silent⟩

theorem logEvent (e : LogEvent) : Harmless Tracker.Spotless (HookM.logEvent e) :=
  fun _ h => ⟨⟨h.memory, h.closed, h.plain⟩, nofun⟩

theorem registerSink (v : Value) (kind : SinkKind) (category : SinkCategory) :
    Harmless Tracker.Spotless (HookM.registerSink v kind category) := by
  refine .get_bind fun t h => ?_
  split
  · exact .pure _
  · exact .bind (.lift fun _ _ => ⟨h.memory, h.closed, h.plain⟩) fun _ =>
      .bind (logEvent _) fun _ => .pure _

end Harmless

theorem CheckedM.harmless_clearProperty (v : Value) (key : String) :
    Harmless Memory.Spotless (CheckedM.setPropertyTaint v key false) := by
  intro m h
  rcases MemoryM.records_setPropertyTaint v key false m with
    ⟨e, m', run, used⟩ | ⟨map, m', set, run, recorded⟩
  · rw [run]
    exact ⟨h.nodesUsed used, nofun⟩
  · rw [run]
    refine ⟨h.records recorded ?_, nofun⟩
    rcases any : map.any
    · rfl
    · cases (h.ownTaint v).symm.trans (ownTaint_of_cleared set any)

theorem CheckedM.harmless_check (v : Value) : Harmless Memory.Spotless (CheckedM.check v) := by
  refine .get_bind fun m h => ?_
  rw [h.taintAny, if_neg Bool.false_ne_true]
  exact .pure _

namespace Ghost

/-- The function sets taint, or it opens a scope in which everything written is tainted. -/
def taints : Ghost → Bool
  | .setTaint | .setPropertyTaint | .setRangeTaint | .pushScope => true
  | _ => false

theorem writes_of_not_taints {ghost : Ghost} {tainted : Bool} (safe : ghost.taints = false)
    (writes : ghost.writes? = some tainted) : tainted = false := by
  cases ghost <;> cases safe <;> cases writes <;> rfl

/-- All other ghost functions leave a state without taint as it is, and find nothing in it. -/
theorem admits_harmless {ghost : Ghost} (safe : ghost.taints = false) :
    ghost.Admits fun _ x => Harmless Tracker.Spotless x where
  returns := .pure
  binds := .bind
  reads := .lift fun _ h => h
  fails _ silent := .throw silent
  logEvent := .logEvent
  registerSink := .registerSink
  check v := .onMemory (CheckedM.harmless_check v)
  whole tainted v writes := by
    obtain rfl : tainted = false := writes_of_not_taints safe writes
    exact .onMemory (.lift fun m h => h.records (MemoryM.records_setTaint v false m) rfl)
  property tainted v key writes := by
    obtain rfl : tainted = false := writes_of_not_taints safe writes
    exact .onMemory (CheckedM.harmless_clearProperty v key)
  push opens := by
    subst opens
    cases safe
  pop _ args := by
    refine .get_bind fun t h => ?_
    -- no scope is open that could be closed
    have closed : t.scope.pop = .error .scopeNotOpen := by rw [EvalScope.pop, h.closed]
    dsimp only
    rw [closed]
    exact .throw rfl

theorem harmless_run {ghost : Ghost} (safe : ghost.taints = false) (args : List Value) :
    Harmless Tracker.Spotless (ghost.run args) := (admits_harmless safe).run args

end Ghost

namespace Tracker

theorem Logs.spotless {t t' : Tracker} (logs : t.Logs t') (h : t.Spotless) : t'.Spotless where
  memory := by
    rw [logs.memory]
    exact h.memory
  closed := by
    rw [logs.scope]
    exact h.closed
  plain := by
    rw [logs.settings]
    exact h.plain

theorem harmless_checkCall (c : Call) : Harmless Tracker.Spotless (checkCall c) := by
  refine .get_bind fun t _ => .bind (.onMemory (.forM (fun v => .lift fun m h => ?_) _)) fun _ =>
    .get_bind fun t h => ?_
  · exact h.records (MemoryM.records_relabel v _ m) (h.ownTaint v)
  · -- no argument is tainted
    have clean : taintedArguments t.memory c.args = [] :=
      List.filter_eq_nil_iff.mpr fun p _ => by rw [h.memory.isTainted]; exact Bool.false_ne_true
    rw [clean]
    exact .pure _

theorem harmless_callPreBody {t : Tracker} (h : t.Spotless) {c : Call} (native : Bool)
    (safe : ∀ g, t.ghostOf? c = some g → g.taints = false) :
    (callPreBody c native t).2.Spotless ∧
      ∀ f, (callPreBody c native t).1 ≠ .error (.finding f) := by
  obtain ⟨kept, silent⟩ := harmless_checkCall c t h
  rcases checkCall_passes c t with ⟨t₁, passed, marks⟩ | ⟨f, t₁, refused, -⟩
  · rw [passed] at kept
    rcases ghost : t.ghostOf? c with _ | g
    · rw [callPreBody_of_real passed (by rw [ghostOf?_of_marks marks, ghost])]
      exact Harmless.onMemory (calm_openCall _ c native).harmless t₁ kept
    · have runs : Harmless Tracker.Spotless (enterGhost g c) :=
        .bind (.onMemory (CheckedM.calm_expectIdle _).harmless) fun _ =>
          .bind (Ghost.harmless_run (safe g ghost) _) fun _ => .pure _
      rw [callPreBody_of_called passed (by rw [ghostOf?_of_marks marks, ghost])]
      exact runs t₁ kept
  · rw [refused] at silent
    exact absurd rfl (silent f)

end Tracker

namespace Hook

variable {h : Hook} {t : Tracker}

/-- While no scope is open and strings are not tracked character by character, no other steps are
taken. -/
theorem Does.plain {d : Deed} {m : Memory} (does : h.Does t d m) (spotless : t.Spotless) :
    d.Plain := by
  cases does with
  | write active _ =>
    rw [EvalScope.isActive, spotless.closed] at active
    simp at active
  | read _ | binary _ | native _ _ _ _ => exact Levels.resolve_ne_string spotless.plain _
  | store _ | unary _ | codePre _ _ _ | codePost _ => trivial

/-- A hook that calls none of the four ghost functions makes up no taint and finds none. -/
theorem harmless (h : Hook) (spotless : t.Spotless)
    (safe : ∀ c g, h = .callPre c → t.ghostOf? c = some g → g.taints = false) :
    (h.run t).2.Spotless ∧ ∀ f, (h.run t).1 ≠ .error (.finding f) := by
  by_cases other : ∀ c, h ≠ .callPre c
  · have settings := (h.follows t).settings
    have rest (memory : (h.run t).2.memory.Spotless) : (h.run t).2.Spotless :=
      ⟨memory, by rw [h.sameScope other t]; exact spotless.closed,
        by rw [settings]; exact spotless.plain⟩
    rcases h.idles_or_does other t with ⟨d, m, does⟩ | idles
    · obtain ⟨quiet, ends⟩ := does.run
      obtain ⟨kept, silent⟩ := d.harmless t.settings.policies (does.plain spotless) m
        (spotless.memory.quiet quiet)
      exact ⟨rest (kept.quiet ends.quiet), fun f found => silent f (ends.finding f found)⟩
    · exact ⟨rest (spotless.memory.quiet idles.quiet), idles.silent⟩
  · obtain ⟨c, rfl⟩ : ∃ c, h = .callPre c := by simpa using other
    obtain ⟨c', native, t₀, t', same, logs, run, ended⟩ := run_callPre c t
    have called : t₀.ghostOf? c' = t.ghostOf? c := by
      rw [ghostOf?, ghostOf?, same, logs.ghosts, logs.memory]
    obtain ⟨kept, silent⟩ := harmless_callPreBody (logs.spotless spotless) native (c := c')
      fun g ghost => safe c g rfl (called.symm.trans ghost)
    rw [run]
    refine ⟨ended.spotless ⟨kept.memory.quiet (quiet_ended _), kept.closed, kept.plain⟩,
      fun f found => silent f ?_⟩
    rcases returned : (callPreBody c' native t₀).1 with e | q <;> rw [returned] at found
    · cases found
      rfl
    · cases found

end Hook

namespace Session

/-- The event is a call of a ghost function through which taint may enter. -/
def Sources (s : Session) (e : Event) : Prop :=
  (e.call?.bind s.tracker.ghostOf?).any Ghost.taints = true

instance (s : Session) (e : Event) : Decidable (s.Sources e) := inferInstanceAs (Decidable (_ = true))

/-- The event is a hook that ends with a finding. -/
def Finds (s : Session) : Event → Prop
  | .hook h => ∃ f, (h.run s.tracker).1 = .error (.finding f)
  | .host _ => False

/-- No entry has its bit set, no map has a tainted character or a tainted length, and no value counts
as tainted. -/
structure Untainted (s : Session) : Prop where
  bits : ∀ key e, s.tracker.memory.shadow.entries.get? key = some e → e.bit = false
  maps : ∀ key e map, s.tracker.memory.shadow.entries.get? key = some e → e.chars = some map →
    map.length = false ∧ ∀ b ∈ map.chars, b = false
  values : ∀ v, s.tracker.memory.isTainted v = false

theorem untainted_of_spotless {s : Session} (h : s.tracker.Spotless) : s.Untainted where
  bits key e stored := (e.isTainted_eq_false_iff.mp (h.memory key e stored)).1
  maps key e map stored chars := (e.isTainted_eq_false_iff.mp (h.memory key e stored)).2 map chars
  values v := h.memory.isTainted v

theorem spotless_start {settings : Settings}
    (plain : settings.policies.precision .string ≠ .precise) (heap : Heap) :
    (start settings heap).tracker.Spotless where
  memory _ _ impossible := nomatch impossible
  closed := rfl
  plain := plain

/-- One event, be it what it may, makes up no taint and finds none. -/
theorem spotless_after {s : Session} (h : s.tracker.Spotless) {e : Event} (other : ¬ s.Sources e) :
    (s.after e).tracker.Spotless ∧ ¬ s.Finds e := by
  cases e with
  | host heap => exact ⟨⟨h.memory, h.closed, h.plain⟩, fun impossible => impossible⟩
  | hook hook =>
    obtain ⟨kept, silent⟩ := hook.harmless h fun c g called ghost => by
      subst called
      rcases taints : g.taints
      · rfl
      · exact absurd (show (s.tracker.ghostOf? c).any Ghost.taints = true by rw [ghost]; exact taints)
          other
    exact ⟨kept, fun ⟨f, found⟩ => silent f found⟩

theorem spotless_run {s : Session} (h : s.tracker.Spotless) {events : List Event}
    (sourceless : s.Avoids Sources events) :
    s.Always Untainted events ∧ s.Avoids Finds events := by
  induction events generalizing s with
  | nil => exact ⟨untainted_of_spotless h, trivial⟩
  | cons e rest ih =>
    obtain ⟨next, silent⟩ := spotless_after h sourceless.1
    obtain ⟨always, never⟩ := ih next sourceless.2
    exact ⟨⟨untainted_of_spotless h, always⟩, silent, never⟩

/-- In a run in which hooks are called in any order and may fail, and in which the host does what it
likes on the heap, nothing ever counts as tainted and nothing is found, unless one of the ghost
functions through which taint enters is called. That strings are not tracked character by character is
true in particular where nothing is configured. -/
theorem untainted_of_sourceless {settings : Settings}
    (plain : settings.policies.precision .string ≠ .precise) (heap : Heap) {events : List Event}
    (sourceless : (start settings heap).Avoids Sources events) :
    (start settings heap).Always Untainted events ∧ (start settings heap).Avoids Finds events :=
  spotless_run (spotless_start plain heap) sourceless

/-- A heap with the function that clears taint and the one that checks it, and with an array. -/
def clearAndCheck : Heap :=
  ⟨#[{ kind := .function { name := "__jalangi_clear_taint__" } },
    { kind := .function { name := "__jalangi_check_taint__" } }, { kind := .array [] }]⟩

/-- A literal is cleared, stored into the prototype of an array and concatenated; the result is
checked. -/
def clearedLiteral : List Event :=
  let s : Value := .shadow ⟨0⟩ ⟨0⟩ (.string "s")
  [.host clearAndCheck, .hook (.literal (.string "s")),
    .hook (.callPre { f := .object 0, base := .undefined, args := [s], site := 1 }),
    .hook (.putFieldPre (.object 2) (.string "__proto__") s),
    .hook (.putField (.object 2) (.string "__proto__") (.string "s")),
    .hook (.binaryPre "+" s s), .hook (.binary "+" (.string "s") (.string "s") (.string "ss")),
    .hook (.callPre { f := .object 1, base := .undefined, args := [s], site := 2 })]

/-- Where nothing is configured, the literal stays untainted and nothing is found. -/
theorem untainted_of_sourceless_clearedLiteral :
    ({} : Settings).policies.precision .string ≠ .precise ∧
    (start {} ⟨#[]⟩).Avoids Sources clearedLiteral ∧
    (start {} ⟨#[]⟩).Always Untainted clearedLiteral ∧
    (start {} ⟨#[]⟩).Avoids Finds clearedLiteral := by
  have plain : ({} : Settings).policies.precision .string ≠ .precise := by decide
  have sourceless : (start {} ⟨#[]⟩).Avoids Sources clearedLiteral := by decide +kernel
  exact ⟨plain, sourceless, untainted_of_sourceless plain ⟨#[]⟩ sourceless⟩

end Session

end ShadowTaint
