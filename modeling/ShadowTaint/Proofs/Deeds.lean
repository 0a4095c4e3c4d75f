import ShadowTaint.Proofs.Quiet
/-!
# What a hook does about taint

Every hook but the one before a call is bookkeeping, except for at most one step that reads or
records taint. The step takes place when the operands are wrapped, in the memory that the wrapping
has left. This file says which hook takes which step, and that nothing else about it matters for the
recorded taint and for findings.

## Main definitions

- `Deed`: the steps, with the operands that they are taken on.
- `Hook.Does`: a hook takes a step, in a given memory.
- `Hook.Idles`: a hook records no taint and finds none.

## Main statements

- `Hook.idles_or_does`: a hook takes a step or idles.
- `Hook.Does.run`: what a hook records, and whether it finds anything, is up to its step.
-/

namespace ShadowTaint

open Memory Tracker

/-- A step that reads or records taint: the value that is written in a scope, the rule of an operation
for its operands, or the evaluation of code. -/
inductive Deed where
  | write (v : Value)
  | read (policy : Policy) (ops : Operands)
  | store (policy : Policy) (ops : Operands)
  | binary (policy : Policy) (op : String) (ops : Operands)
  | unary (policy : Policy) (operand result : Value)
  | native (policy : Policy) (c : NativeCall)
  | evaluate (code : Value) (sink : Bool) (maxLength : Nat)

/-- Takes a step. -/
def Deed.run (levels : Levels) : Deed → CheckedM Unit
  | .write v => taintWritten v
  | .read policy ops => policy.getField levels ops
  | .store policy ops => policy.putField levels ops
  | .binary policy op ops => policy.binary levels op ops
  | .unary policy operand result => policy.unary levels operand result
  | .native policy c => policy.call levels c
  | .evaluate code sink maxLength => checkCode code sink maxLength

theorem Policy.registered?_eq_string {kind : ValueKind} {level : Precision}
    (h : registered? kind level = some .string) : kind = .string ∧ level = .precise := by
  unfold registered? at h
  split at h <;> cases h
  exact ⟨rfl, rfl⟩

/-- A policy that is not one of objects is registered for the class, at the configured level or at the default one. -/
theorem Levels.registered_of_resolve {levels : Levels} {kind : ValueKind} {policy : Policy}
    (resolved : levels.resolve kind = policy) (other : ∀ grain, policy ≠ .object grain) :
    ∃ level, Policy.registered? kind level = some policy ∧
      (level = levels.precision kind ∨ level = .default) := by
  unfold resolve at resolved
  rcases configured : Policy.registered? kind (levels.precision kind) with _ | found
  · rcases default : Policy.registered? kind .default with _ | found
    · rw [configured, default] at resolved
      exact absurd resolved.symm (other _)
    · rw [configured, default] at resolved
      cases resolved
      exact ⟨_, default, .inr rfl⟩
  · rw [configured] at resolved
    cases resolved
    exact ⟨_, configured, .inl rfl⟩

/-- Strings are tracked character by character only if that is configured. -/
theorem Levels.resolve_ne_string {levels : Levels} (plain : levels.precision .string ≠ .precise)
    (kind : ValueKind) : levels.resolve kind ≠ .string := by
  intro resolved
  obtain ⟨level, registered, taken⟩ := registered_of_resolve resolved nofun
  obtain ⟨rfl, rfl⟩ := Policy.registered?_eq_string registered
  rcases taken with configured | default
  · exact plain configured.symm
  · cases default

namespace Tracker

section Operands

/-- The operands of a field access, as its hook wraps them. -/
def fieldOperands (base offset v : Value) (levels : Levels) : CheckedM Operands := do
  MemoryM.modifyHeap fun h => nameFunction h v offset
  let offset ← MemoryM.wrap levels offset
  let base ← MemoryM.wrap levels base
  let v ← MemoryM.wrap levels v
  CheckedM.checkPending "WGetField" 0
  return ⟨base, offset, v⟩

/-- The operands of a store, as its hook wraps them. -/
def storeOperands (base offset v : Value) (levels : Levels) : CheckedM Operands := do
  let policy := levels.policyFor (← get).heap base
  let v ← MemoryM.restoreStored levels policy v
  let offset ← MemoryM.wrap levels offset
  let base ← MemoryM.wrap levels base
  CheckedM.checkPending "WPutField" 0
  return ⟨base, offset, v⟩

/-- The operands and the result of a binary operator, as its hook wraps them. -/
def binaryOperands (left right result : Value) (levels : Levels) : CheckedM Operands := do
  let right ← MemoryM.wrap levels right
  let left ← MemoryM.wrap levels left
  let result ← MemoryM.wrap levels result
  CheckedM.checkPending "WBinary" 0
  return ⟨left, right, result⟩

/-- The operand and the result of a unary operator, as its hook wraps them. -/
def unaryOperands (operand result : Value) (levels : Levels) : CheckedM (Value × Value) := do
  let operand ← MemoryM.wrap levels operand
  let result ← MemoryM.wrap levels result
  CheckedM.checkPending "WUnary" 0
  return (operand, result)

/-- The code that was prepared for evaluation, as its hook wraps it. -/
def codeValue (code : String) (levels : Levels) : CheckedM Value := do
  let wrapped ← MemoryM.wrap levels (.string code)
  CheckedM.checkPending "WEval" 0
  return wrapped

end Operands

end Tracker

/-- The hook takes the step, in a memory in which its operands are wrapped. -/
inductive Hook.Does (t : Tracker) : Hook → Deed → Memory → Prop where
  | write {target v w : Value} {m : Memory} (active : t.scope.isActive = true)
      (run : writeBody v false t.settings.policies t.memory = (.ok w, m)) :
      Does t (.write target v) (.write w) m
  | read {base offset v : Value} {ops : Operands} {m : Memory}
      (run : fieldOperands base offset v t.settings.policies t.memory = (.ok ops, m)) :
      Does t (.getField base offset v) (.read (m.policyOf t.settings.policies ops.base) ops) m
  | store {base offset v : Value} {ops : Operands} {m : Memory}
      (run : storeOperands base offset v t.settings.policies t.memory = (.ok ops, m)) :
      Does t (.putField base offset v) (.store (m.policyOf t.settings.policies ops.base) ops) m
  | binary {op : String} {left right result : Value} {ops : Operands} {m : Memory}
      (run : binaryOperands left right result t.settings.policies t.memory = (.ok ops, m)) :
      Does t (.binary op left right result)
        (.binary (m.policyOf t.settings.policies ops.value) op ops) m
  | unary {op : String} {operand result x y : Value} {m : Memory}
      (run : unaryOperands operand result t.settings.policies t.memory = (.ok (x, y), m)) :
      Does t (.unary op operand result) (.unary (m.policyOf t.settings.policies x) x y) m
  | native {c q : Call} {result r : Value} {m : Memory} (other : t.ghostOf? c = none)
      (native : t.memory.isNativeCall c = true)
      (run : closeCall c result t.settings.policies t.memory = (.ok (q, r), m))
      (defined : (m.valueOf r).isUndefined = false) :
      Does t (.callPost c result)
        (.native (m.policyOf t.settings.policies q.base) ⟨q.f, q.base, q.args, r⟩) m
  | codePre {code : Value} {internal : Bool} {source : String} {m : Memory}
      (sink : t.scope.sink = true) (run : codeSource code internal t.memory = (.ok source, m))
      (plain : containsText source Rewrite.instrumentMarker = false) :
      Does t (.codePre code internal) (.evaluate code true t.settings.maxLength) m
  | codePost {code : String} {w : Value} {m : Memory}
      (run : codeValue code t.settings.policies t.memory = (.ok w, m)) :
      Does t (.codePost code) (.evaluate w t.scope.sink t.settings.maxLength) m

/-- The fault is no finding. -/
def Fault.Silent (e : Fault) : Prop := e.finding? = none

/-- The hook records no taint and finds none. -/
structure Hook.Idles (h : Hook) (t : Tracker) : Prop where
  quiet : t.memory.Quiet (h.run t).2.memory
  silent : ∀ f, (h.run t).1 ≠ .error (.finding f)

/-- Only the heap may be different. -/
def Memory.SameShadow (m m' : Memory) : Prop := m'.shadow = m.shadow

instance : IsPreorder Memory Memory.SameShadow where
  refl _ := rfl
  trans _ _ _ first second := Eq.trans second first

theorem Memory.SameShadow.quiet {m m' : Memory} (h : m.SameShadow m') : m.Quiet m' := by
  obtain ⟨heap, shadow⟩ := m'
  cases h
  exact ⟨rfl, Nat.le_refl _⟩

/-- The action records no taint, and it fails with silent faults only. -/
structure Calm {σ α : Type} (R : σ → σ → Prop) (x : ExceptT Fault (StateM σ) α) : Prop where
  within : Within R x
  raises : Raises Fault.Silent x

namespace Calm

variable {σ α β : Type} {R : σ → σ → Prop} [IsPreorder σ R]

protected theorem pure (a : α) : Calm R (pure a : ExceptT Fault (StateM σ) α) :=
  ⟨.pure_except a, .pure a⟩

protected theorem get : Calm R (get : ExceptT Fault (StateM σ) σ) := ⟨.get_except, .get⟩

omit [IsPreorder σ R] in
protected theorem lift {x : StateM σ α} (h : Within R x) :
    Calm R (liftM x : ExceptT Fault (StateM σ) α) := ⟨.lift h, .lift x⟩

protected theorem bind {x : ExceptT Fault (StateM σ) α} {f : α → ExceptT Fault (StateM σ) β}
    (hx : Calm R x) (hf : ∀ a, Calm R (f a)) : Calm R (x >>= f) :=
  ⟨.bind_except hx.within fun a => (hf a).within, .bind hx.raises fun a => (hf a).raises⟩

omit [IsPreorder σ R] in
/-- A calm action succeeds, or it fails with a silent fault. -/
theorem cases {x : ExceptT Fault (StateM σ) α} (h : Calm R x) (s : σ) :
    (∃ a s', x s = (.ok a, s') ∧ R s s') ∨ ∃ e s', x s = (.error e, s') ∧ e.Silent ∧ R s s' :=
  run_cases h.within h.raises s

end Calm

namespace CheckedM

theorem calm_checkPending (site : String) (expected : Nat) :
    Calm Quiet (checkPending site expected) := by
  refine ⟨within_checkPending site expected, .bind .get fun m => ?_⟩
  split
  · exact .pure _
  · exact .throw rfl

theorem calm_expectIdle (site : String) : Calm Quiet (expectIdle site) := by
  refine .bind .get fun m => ?_
  split
  · exact .bind (calm_checkPending _ _) fun _ => .bind (.lift MemoryM.quiet_discard) fun _ =>
      calm_checkPending _ _
  · exact calm_checkPending _ _

theorem calm_wrap (levels : Levels) (v : Value) :
    Calm Quiet (liftM (MemoryM.wrap levels v) : CheckedM Value) := .lift (MemoryM.quiet_wrap levels v)

theorem calm_unwrap (v : Value) : Calm Quiet (liftM (MemoryM.unwrap v) : CheckedM Value) :=
  .lift (MemoryM.quiet_unwrap v)

/-- Frames are none of the recorded taint's business. -/
theorem calm_frames {f : ShadowState → ShadowState}
    (h : ∀ s, (f s).entries = s.entries ∧ (f s).nextNode = s.nextNode) :
    Calm Quiet (liftM (MemoryM.modifyShadow f) : CheckedM Unit) :=
  .lift fun m => ⟨(h m.shadow).1, Nat.le_of_eq (h m.shadow).2.symm⟩

end CheckedM

namespace Tracker

open CheckedM

section Bodies

variable (levels : Levels)

theorem calm_fieldOperands (base offset v : Value) :
    Calm Quiet (fieldOperands base offset v levels) :=
  .bind (.lift (MemoryM.quiet_modifyHeap _)) fun _ => .bind (calm_wrap _ _) fun _ =>
    .bind (calm_wrap _ _) fun _ => .bind (calm_wrap _ _) fun _ =>
    .bind (calm_checkPending _ _) fun _ => .pure _

theorem calm_storeOperands (base offset v : Value) :
    Calm Quiet (storeOperands base offset v levels) :=
  .bind .get fun _ => .bind (.lift (MemoryM.quiet_restoreStored _ _ _)) fun _ =>
    .bind (calm_wrap _ _) fun _ => .bind (calm_wrap _ _) fun _ =>
    .bind (calm_checkPending _ _) fun _ => .pure _

theorem calm_binaryOperands (left right result : Value) :
    Calm Quiet (binaryOperands left right result levels) :=
  .bind (calm_wrap _ _) fun _ => .bind (calm_wrap _ _) fun _ => .bind (calm_wrap _ _) fun _ =>
    .bind (calm_checkPending _ _) fun _ => .pure _

theorem calm_unaryOperands (operand result : Value) :
    Calm Quiet (unaryOperands operand result levels) :=
  .bind (calm_wrap _ _) fun _ => .bind (calm_wrap _ _) fun _ =>
    .bind (calm_checkPending _ _) fun _ => .pure _

theorem calm_codeSource (code : Value) (internal : Bool) :
    Calm Quiet (codeSource code internal) := by
  refine .bind (calm_expectIdle _) fun _ => .bind (calm_unwrap _) fun raw => ?_
  cases internal with
  | true => exact .bind (.lift MemoryM.quiet_discard) fun _ => .bind .get fun _ => .pure _
  | false => exact .bind .get fun _ => .pure _

theorem calm_codeValue (code : String) : Calm Quiet (codeValue code levels) :=
  .bind (calm_wrap _ _) fun _ => .bind (calm_checkPending _ _) fun _ => .pure _

theorem calm_literalBody (v : Value) : Calm Quiet (literalBody v levels) :=
  .bind (calm_expectIdle _) fun _ => .bind (calm_wrap _ _) fun _ =>
    .bind (calm_checkPending _ _) fun _ => .pure _

/-- Outside of scopes, what is written is only wrapped. -/
theorem calm_writeBody (v : Value) : Calm Quiet (writeBody v false levels) := by
  have rest (w : Value) : Calm Quiet (do
      CheckedM.checkPending "WWrite" 0
      MemoryM.modifyShadow fun s => { s with context := .unset }
      return w : CheckedM Value) :=
    .bind (calm_checkPending _ _) fun _ => .bind (calm_frames fun _ => ⟨rfl, rfl⟩) fun _ => .pure _
  refine .bind .get fun m => .bind (calm_checkPending _ _) fun _ => ?_
  by_cases conditional : m.shadow.context = .conditional
  · simp only [if_pos conditional]
    exact .bind (calm_wrap _ _) rest
  · simp only [if_neg conditional]
    exact .bind (.pure _) rest

theorem calm_conditionalBody (v : Value) : Calm Quiet (conditionalBody v) :=
  .bind (calm_expectIdle _) fun _ => .bind (calm_unwrap _) fun _ =>
    .bind (calm_checkPending _ _) fun _ => .pure _

theorem calm_getFieldPreBody (base offset : Value) : Calm Quiet (getFieldPreBody base offset) :=
  .bind (calm_expectIdle _) fun _ => .bind (calm_unwrap _) fun _ => .bind (calm_unwrap _)
    fun _ => .pure _

theorem calm_putFieldPreBody (base offset v : Value) :
    Calm Quiet (putFieldPreBody base offset v levels) :=
  .bind (calm_expectIdle _) fun _ => .bind (calm_unwrap _) fun _ => .bind (calm_unwrap _)
    fun _ => .bind .get fun _ => .bind (.lift (MemoryM.quiet_prepareStored _ _)) fun _ => .pure _

theorem calm_binaryPreBody (left right : Value) : Calm Quiet (binaryPreBody left right) :=
  .bind (calm_expectIdle _) fun _ => .bind (calm_unwrap _) fun _ => .bind (calm_unwrap _)
    fun _ => .pure _

theorem calm_unaryPreBody (operand : Value) : Calm Quiet (unaryPreBody operand) :=
  .bind (calm_expectIdle _) fun _ => calm_unwrap _

theorem calm_openCall (c : Call) (native : Bool) : Calm Quiet (openCall c native levels) where
  within := within_openCall MemoryM.quiet_discard MemoryM.quiet_unwrap MemoryM.quiet_prepareArguments
    (fun _ _ _ => ⟨rfl, Nat.le_refl _⟩) c native levels
  raises := raises_openCall (fun _ => rfl) c native levels

/-- Going back to a saved frame leaves everything but frames alone. -/
theorem quiet_restoreFrame {m : Memory} {site : CallSite} {s : ShadowState}
    (restored : m.shadow.restoreFrame site = .ok s) : m.Quiet { m with shadow := s } := by
  rcases ShadowState.restoreFrame_cases m.shadow site with
    ⟨frame, rest, saved, -, ok, -⟩ | failed
  · rw [ok] at restored
    cases restored
    exact ⟨rfl, Nat.le_refl _⟩
  · rw [failed] at restored
    cases restored

theorem calm_closeCall (c : Call) (result : Value) : Calm Quiet (closeCall c result levels) where
  within _ := closeCall_within (MemoryM.quiet_wrap levels) (fun _ restored => quiet_restoreFrame restored)
    (fun _ => MemoryM.quiet_restoreArguments levels _ _ _) result
  raises := raises_closeCall (fun _ => rfl) c result levels

theorem calm_enterFunctionBody (f : Value) : Calm Quiet (enterFunctionBody f) := by
  refine .bind .get fun m => ?_
  dsimp only
  split
  · exact .bind (calm_frames fun _ => ⟨rfl, rfl⟩) fun _ => calm_expectIdle _
  · exact .bind (calm_frames fun _ => ⟨rfl, rfl⟩) fun _ => calm_expectIdle _

theorem calm_exitFunctionBody (threw : Bool) : Calm Quiet (exitFunctionBody threw) := by
  unfold exitFunctionBody
  split
  · exact .bind (calm_frames fun _ => ⟨rfl, rfl⟩) fun _ => calm_checkPending _ _
  · constructor
    · intro m
      rw [get_bind_apply]
      split
      · rcases restored : m.shadow.restoreFrame functionEntrySite with v | s
        · exact refl_of Quiet m
        · exact quiet_restoreFrame restored
      · exact refl_of Quiet m
    · refine .bind .get fun m => ?_
      dsimp only
      split
      · split
        · exact .throw rfl
        · exact .lift _
      · exact .pure _

theorem calm_launderSinks {R : Memory → Memory → Prop} [IsPreorder Memory R] (c : Call)
    (result : Value) : Calm (Follows R) (launderSinks c result) := by
  refine ⟨.bind_except .get_except fun t => ?_, (raises_launderSinks c result).mono nofun⟩
  dsimp only
  split
  · split
    · exact .pure_except _
    · exact .bind_except (HookM.follows_registerSink _ _ _) fun _ => .pure_except _
  · exact .pure_except _

theorem calm_tagImport (c : Call) (result : Value) :
    Calm (Follows SameShadow) (tagImport c result) := by
  refine ⟨.bind_except .get_except fun t => ?_, (raises_tagImport c result).mono nofun⟩
  dsimp only
  split
  · exact .bind_except (HookM.follows_logEvent _) fun _ =>
      HookM.follows_onMemory (.lift fun _ => rfl)
  · exact .pure_except _

end Bodies

section Steps

variable (levels : Levels)

theorem getFieldBody_eq (base offset v : Value) : getFieldBody base offset v levels = (do
    let ops ← fieldOperands base offset v levels
    ((← get).policyOf levels ops.base).getField levels ops
    return ops) := by
  unfold getFieldBody fieldOperands
  simp only [bind_assoc, pure_bind]

theorem putFieldAttempt_eq (base offset v : Value) : putFieldAttempt base offset v levels = (do
    let ops ← storeOperands base offset v levels
    ((← get).policyOf levels ops.base).putField levels ops
    return ops) := by
  unfold putFieldAttempt storeOperands
  simp only [bind_assoc, pure_bind]

theorem binaryBody_eq (op : String) (left right result : Value) :
    binaryBody op left right result levels = (do
      let ops ← binaryOperands left right result levels
      ((← get).policyOf levels ops.value).binary levels op ops
      return (ops.base, ops.offset, ops.value)) := by
  unfold binaryBody binaryOperands
  simp only [bind_assoc, pure_bind]

theorem unaryBody_eq (operand result : Value) : unaryBody operand result levels = (do
    let (x, y) ← unaryOperands operand result levels
    ((← get).policyOf levels x).unary levels x y
    return (x, y)) := by
  unfold unaryBody unaryOperands
  simp only [bind_assoc, pure_bind]

theorem codePostBody_eq (code : String) (sink : Bool) (maxLength : Nat) :
    codePostBody code sink maxLength levels = (do
      let wrapped ← codeValue code levels
      checkCode wrapped sink maxLength
      return code) := by
  unfold codePostBody codeValue
  simp only [bind_assoc, pure_bind]

theorem writeBody_eq (v : Value) : writeBody v true levels = (do
    let w ← writeBody v false levels
    taintWritten w
    return w) := by
  unfold writeBody
  simp only [bind_assoc, Bool.false_eq_true, if_false, if_true]
  refine bind_congr fun m => bind_congr fun _ => ?_
  split <;> simp only [bind_assoc, pure_bind]

end Steps

end Tracker

namespace Hook

/-- The hook records what is recorded in the given memory, and what it finds is the given finding. It
knows the handles that are known there, unless it is a store that was refused. -/
structure EndsAs (h : Hook) (t : Tracker) (outcome : Except Fault Unit × Memory) : Prop where
  quiet : outcome.2.Quiet (h.run t).2.memory
  wraps : ¬ h.IsStore ∨ outcome.1.isOk = true →
    (h.run t).2.memory.shadow.wraps = outcome.2.shadow.wraps
  finding : ∀ f, (h.run t).1 = .error (.finding f) → outcome.1 = .error (.finding f)

section Running

variable {α : Type} {h : Hook} {t : Tracker} {name : String}
  {operands : Tracker → List (String × String)} {g : α → List Value}

theorem error_of_map {r : Except Fault α} {e : Fault} (failed : r.map g = .error e) :
    r = .error e := by
  cases r with
  | error e' =>
    cases failed
    rfl
  | ok a => cases failed

theorem quiet_ended (m : Memory) : m.Quiet m.ended := ⟨rfl, Nat.le_refl _⟩

/-- What a hook returns to the host is made of what its body returns, and what it does to the memory
is what its body does. -/
theorem run_of_body {body : HookM α}
    (hook : h.run t = (HookM.hook name operands body >>= fun a => pure (g a) : HookM _) t) :
    ∃ t₀, t.Logs t₀ ∧ (h.run t).1 = (body t₀).1.map g ∧
      (h.run t).2.memory = (body t₀).2.memory.ended := by
  obtain ⟨t₀, t', logs, hooked, ended⟩ := HookM.hook_run name operands body t
  refine ⟨t₀, logs, ?_⟩
  rcases returned : (body t₀).1 with e | a <;> rw [returned] at hooked
  · rw [hook, bind_apply_error hooked]
    exact ⟨rfl, ended.memory⟩
  · rw [hook, bind_apply_ok hooked]
    exact ⟨rfl, ended.memory⟩

/-- The hook before a call, too, is logging around a body. It is sorted out first whether the call is
external, which the body is told. -/
theorem run_callPre (c : Call) (t : Tracker) : ∃ c' native t₀ t', c'.f = c.f ∧ t.Logs t₀ ∧
    (callPre c).run t = ((callPreBody c' native t₀).1.map Call.operands, t') ∧
    Logs { (callPreBody c' native t₀).2 with
      memory := (callPreBody c' native t₀).2.memory.ended } t' := by
  obtain ⟨c', native, operands, called, same⟩ : ∃ c' native operands,
      Tracker.callPre c t = HookM.hook "invoke_fun_pre" operands (callPreBody c' native) t ∧
        c'.f = c.f := by
    have called : Tracker.callPre c t = HookM.hook "invoke_fun_pre"
        (fun t' => [("f", t'.render c.f), ("base", t'.render c.base),
          ("args", t'.renderAll c.args), ("call_type", (CallType.ofCall (t.memory.isExternalCall c)
            (t.memory.isNativeCall { c with external := t.memory.isExternalCall c })).name)])
        (callPreBody { c with external := t.memory.isExternalCall c }
          (t.memory.isNativeCall { c with external := t.memory.isExternalCall c })) t := by
      unfold Tracker.callPre
      rw [get_bind_apply]
    exact ⟨_, _, _, called, rfl⟩
  obtain ⟨t₀, t', logs, hooked, ended⟩ :=
    HookM.hook_run "invoke_fun_pre" operands (callPreBody c' native) t
  refine ⟨c', native, t₀, t', same, logs, ?_, ended⟩
  rw [hooked] at called
  show (Tracker.callPre c >>= fun c => pure c.operands : HookM _) t = _
  generalize callPreBody c' native t₀ = outcome at called ⊢
  rcases outcome with ⟨e | q, t₁⟩
  · rw [bind_apply_error called]
    rfl
  · rw [bind_apply_ok called]
    rfl

/-- A hook whose body has recorded nothing and found nothing. -/
theorem idles_of_body {body : HookM α}
    (hook : h.run t = (HookM.hook name operands body >>= fun a => pure (g a) : HookM _) t)
    (quiet : ∀ t₀, t.Logs t₀ → t.memory.Quiet (body t₀).2.memory ∧
      ∀ f, (body t₀).1 ≠ .error (.finding f)) : h.Idles t := by
  obtain ⟨t₀, logs, returned, memory⟩ := run_of_body hook
  obtain ⟨quiet, silent⟩ := quiet t₀ logs
  constructor
  · rw [memory]
    exact trans_of Quiet quiet (quiet_ended _)
  · intro f found
    rw [returned] at found
    exact silent f (error_of_map found)

variable (body : Tracker → CheckedM α)
  (hook : h.run = HookM.hook name operands (do HookM.onMemory (body (← get))) >>= fun a => pure (g a))
  (same : ∀ t₀, t.Logs t₀ → body t₀ = body t)

include hook same

theorem run_of {r : Except Fault α} {m : Memory} (run : body t t.memory = (r, m)) :
    (h.run t).1 = r.map g ∧ (h.run t).2.memory = m.ended := by
  obtain ⟨t₀, logs, returned, memory⟩ := run_of_body (congrFun hook t)
  rw [get_bind_apply, HookM.onMemory_apply, same t₀ logs, logs.memory, run] at returned memory
  exact ⟨returned, memory⟩

theorem idles_of {r : Except Fault α} {m : Memory} (run : body t t.memory = (r, m))
    (quiet : t.memory.Quiet m) (silent : ∀ f, r ≠ .error (.finding f)) : h.Idles t := by
  refine idles_of_body (congrFun hook t) fun t₀ logs => ?_
  rw [get_bind_apply, HookM.onMemory_apply, same t₀ logs, logs.memory, run]
  exact ⟨quiet, silent⟩

theorem idles_of_calm (calm : Calm Quiet (body t)) : h.Idles t := by
  rcases calm.cases t.memory with ⟨a, m, run, quiet⟩ | ⟨e, m, run, silent, quiet⟩
  · exact idles_of body hook same run quiet nofun
  · refine idles_of body hook same run quiet fun f impossible => ?_
    cases impossible
    cases silent

/-- A hook whose body begins with a calm part comes to the end of that part, or it idles. -/
theorem idles_or_ok {β : Type} {first : CheckedM β} {rest : β → CheckedM α} (calm : Calm Quiet first)
    (run : body t t.memory = (first >>= rest) t.memory) :
    (∃ b m, first t.memory = (.ok b, m)) ∨ h.Idles t := by
  rcases calm.cases t.memory with ⟨b, m, begun, -⟩ | ⟨e, m, begun, silent, quiet⟩
  · exact .inl ⟨b, m, begun⟩
  · rw [bind_apply_error begun] at run
    refine .inr (idles_of body hook same run quiet fun f impossible => ?_)
    cases impossible
    cases silent

/-- A hook whose body takes a step when it has wrapped its operands, and then returns. -/
theorem endsAs_of {x : CheckedM Unit} {m : Memory} {a : α}
    (run : body t t.memory = (x >>= fun _ => pure a : CheckedM α) m) : h.EndsAs t (x m) := by
  rcases step : x m with ⟨e | ⟨⟩, m'⟩
  · rw [bind_apply_error step] at run
    obtain ⟨returned, memory⟩ := run_of body hook same run
    refine ⟨by rw [memory]; exact quiet_ended m', fun _ => by rw [memory]; rfl, fun f found => ?_⟩
    rw [returned] at found
    cases error_of_map found
    rfl
  · rw [bind_apply_ok step] at run
    obtain ⟨returned, memory⟩ := run_of body hook same run
    refine ⟨by rw [memory]; exact quiet_ended m', fun _ => by rw [memory]; rfl, fun f found => ?_⟩
    rw [returned] at found
    cases error_of_map found

end Running

section Returning

/-- What the hook after a call does once the operands are wrapped. -/
theorem propagated (t : Tracker) (q : Call) (r : Value) (native : Bool) (levels : Levels)
    (imports : Prop) [Decidable imports] :
    ∃ t', (do
        if native then HookM.onMemory (propagateCall q r levels)
        if imports then tagImport q r
        return (q, r) : HookM (Call × Value)) t = (.ok (q, r), t') ∧
      (if native then (propagateCall q r levels t.memory).2 else t.memory).SameShadow t'.memory := by
  have tagged (t₁ : Tracker) : ∃ t', (do
      if imports then tagImport q r
      return (q, r) : HookM (Call × Value)) t₁ = (.ok (q, r), t') ∧
        t₁.memory.SameShadow t'.memory := by
    obtain ⟨t', run, same⟩ :=
      succeeds_if (calm_tagImport q r).within (raises_tagImport q r) imports t₁
    exact ⟨t', if_bind_apply run, same.memory⟩
  cases native with
  | false => exact tagged t
  | true =>
    obtain ⟨t', run, same⟩ := tagged { t with memory := (propagateCall q r levels t.memory).2 }
    exact ⟨t', run, same⟩

/-- The body of the hook after a call, for anything but a ghost function, goes on from the memory in
which the operands are wrapped. -/
theorem callPostBody_apply {t : Tracker} {c : Call} (other : t.ghostOf? c = none) (result : Value)
    (native : Bool) :
    (∃ q r m, closeCall c result t.settings.policies t.memory = (.ok (q, r), m) ∧
      ∃ t', callPostBody c result native t = (.ok (q, r), t') ∧
        (if native then (propagateCall q r t.settings.policies m).2 else m).SameShadow t'.memory) ∨
    ∃ e m t', closeCall c result t.settings.policies t.memory = (.error e, m) ∧
      callPostBody c result native t = (.error e, t') ∧ t'.memory = m := by
  unfold callPostBody
  rw [get_bind_apply, other, if_neg (by simp)]
  dsimp only
  have launder := calm_launderSinks (R := Eq) c result
  obtain ⟨t₁, run, laundered⟩ := succeeds_if launder.within (raises_launderSinks c result)
    ((c.external || t.settings.aggressiveSinkPropagation) = true) t
  rw [if_bind_apply run]
  rcases closed : closeCall c result t.settings.policies t.memory with ⟨e | ⟨q, r⟩, m⟩
  · refine .inr ⟨e, m, { t₁ with memory := m }, rfl, bind_apply_error ?_, rfl⟩
    rw [HookM.onMemory_apply, ← laundered.memory, closed]
  · refine .inl ⟨q, r, m, rfl, ?_⟩
    have step : HookM.onMemory (closeCall c result t.settings.policies) t₁ =
        (.ok (q, r), { t₁ with memory := m }) := by
      rw [HookM.onMemory_apply, ← laundered.memory, closed]
    rw [bind_apply_ok step]
    exact propagated { t₁ with memory := m } q r native t.settings.policies _

end Returning

theorem idles_conditional (v : Value) (t : Tracker) : (conditional v).Idles t := by
  rcases (calm_conditionalBody v).cases t.memory with ⟨raw, m, run, quiet⟩ | ⟨e, m, run, silent, quiet⟩
  all_goals
    obtain ⟨t', hooked, memory, -⟩ := HookM.memoryHook_of "conditional"
      (fun t => [("value", t.render v)]) (fun _ => conditionalBody v) (t := t) run
    have quiet' : t.memory.Quiet t'.memory := by
      rw [memory]
      exact trans_of Quiet quiet (quiet_ended m)
  · have passed : (conditional v).run t =
        (.ok [raw], t'.modifyShadow fun s => { s with context := .conditional }) :=
      bind_apply_ok (bind_apply_ok hooked)
    exact ⟨by rw [passed]; exact ⟨quiet'.entries, quiet'.nodes⟩, by rw [passed]; nofun⟩
  · have failed : (conditional v).run t = (.error e, t') :=
      bind_apply_error (bind_apply_error hooked)
    refine ⟨by rw [failed]; exact quiet', fun f found => ?_⟩
    rw [failed] at found
    cases found
    cases silent

/-- A store that fails before its operands are wrapped records nothing. -/
theorem quiet_refused {m m' : Memory} (h : m.Quiet m') : m.Quiet (m.refused m') :=
  ⟨h.entries, h.nodes⟩

/-- Outside of scopes, what is written is only wrapped. -/
theorem write_idles_or_does (target v : Value) (t : Tracker) :
    (∃ d m, (write target v).Does t d m) ∨ (write target v).Idles t := by
  have same (t₀ : Tracker) (logs : t.Logs t₀) : writeBody v t₀.scope.isActive t₀.settings.policies =
      writeBody v t.scope.isActive t.settings.policies := by rw [logs.scope, logs.settings]
  rcases active : t.scope.isActive
  · refine .inr (idles_of_calm (fun t => writeBody v t.scope.isActive t.settings.policies)
      rfl same ?_)
    rw [active]
    exact calm_writeBody _ v
  · have run : writeBody v t.scope.isActive t.settings.policies t.memory =
        (writeBody v false t.settings.policies >>= fun w => do taintWritten w; return w) t.memory := by
      rw [active, writeBody_eq]
    rcases idles_or_ok (t := t) (h := .write target v)
      (fun t => writeBody v t.scope.isActive t.settings.policies) rfl same (calm_writeBody _ v) run
      with ⟨w, m, run⟩ | idles
    · exact .inl ⟨_, m, .write active run⟩
    · exact .inr idles

/-- The hook after a call is logging around a body, which is told whether native code was called. -/
theorem run_callPost (c : Call) (result : Value) (t : Tracker) :
    (callPost c result).run t = (HookM.hook "invoke_fun"
      (fun t => [("f", t.render c.f), ("base", t.render c.base), ("args", t.renderAll c.args),
        ("result", t.render result)]) (callPostBody c result (t.memory.isNativeCall c)) >>=
      fun r => pure (r.2 :: r.1.operands) : HookM _) t := by
  show (Tracker.callPost c result >>= fun r => pure (r.2 :: r.1.operands) : HookM _) t = _
  unfold Tracker.callPost
  rw [bind_assoc, get_bind_apply]

/-- What a call does about taint is up to native code with a defined result. -/
theorem callPost_idles_or_does (c : Call) (result : Value) (t : Tracker) :
    (∃ d m, (callPost c result).Does t d m) ∨ (callPost c result).Idles t := by
  by_cases takes : ∃ d m, (callPost c result).Does t d m
  · exact .inl takes
  refine .inr (idles_of_body (run_callPost c result t) fun t₀ logs => ?_)
  have ghosts : t₀.ghostOf? c = t.ghostOf? c := by
    rw [ghostOf?, ghostOf?, logs.ghosts, logs.memory]
  rcases ghost : t.ghostOf? c with _ | g
  · rcases callPostBody_apply (ghosts.trans ghost) result (t.memory.isNativeCall c) with
      ⟨q, r, m, closed, t', run, after⟩ | ⟨e, m, t', closed, run, rfl⟩
    all_goals rw [logs.settings, logs.memory] at closed
    · have quiet : t.memory.Quiet m := (calm_closeCall _ c result).within.of_apply closed
      rw [run]
      refine ⟨trans_of Quiet quiet ?_, fun f impossible => by cases impossible⟩
      rcases native : t.memory.isNativeCall c <;> rw [native] at after
      · exact after.quiet
      · rw [if_pos rfl, propagateCall, bind_apply, get_apply] at after
        split at after
        · rename_i defined
          exact absurd ⟨_, m, .native ghost native closed (by simpa using defined)⟩ takes
        · exact after.quiet
    · rw [run]
      have calm := calm_closeCall t.settings.policies c result
      refine ⟨calm.within.of_apply closed, fun f impossible => ?_⟩
      cases impossible
      cases calm.raises _ _ _ closed
  · rw [callPostBody, get_bind_apply, ghosts, ghost]
    refine ⟨?_, fun f impossible => by cases impossible⟩
    show t.memory.Quiet t₀.memory
    rw [logs.memory]
    exact refl_of Quiet _

/-- Code is only checked where that is configured, and only code that is not instrumented yet. -/
theorem codePre_idles_or_does (code : Value) (internal : Bool) (t : Tracker) :
    (∃ d m, (codePre code internal).Does t d m) ∨ (codePre code internal).Idles t := by
  have same (t₀ : Tracker) (logs : t.Logs t₀) :
      codePreBody code internal t₀.scope.sink t₀.settings.maxLength =
        codePreBody code internal t.scope.sink t.settings.maxLength := by
    rw [logs.scope, logs.settings]
  have idles {r : Except Fault String} {m : Memory} (run : codePreBody code internal t.scope.sink
      t.settings.maxLength t.memory = (r, m)) :=
    idles_of (t := t) (h := .codePre code internal) (g := fun _ => [])
      (fun t => codePreBody code internal t.scope.sink t.settings.maxLength) rfl same run
  rcases (calm_codeSource code internal).cases t.memory with
    ⟨source, m, run, quiet⟩ | ⟨e, m, run, silent, quiet⟩
  · by_cases plain : containsText source Rewrite.instrumentMarker = true
    · refine .inr (idles (r := .ok source) (m := m) ?_ quiet nofun)
      rw [codePreBody_eq, bind_apply_ok run, if_pos plain]
      rfl
    · rcases sink : t.scope.sink
      · have read : ∃ text, codePreBody code internal t.scope.sink t.settings.maxLength t.memory =
            (.ok text, m) := by
          rw [codePreBody_eq, bind_apply_ok run, if_neg plain, sink, if_neg Bool.false_ne_true,
            get_bind_apply]
          split
          · exact ⟨_, rfl⟩
          · exact ⟨_, rfl⟩
        obtain ⟨text, read⟩ := read
        exact .inr (idles read quiet nofun)
      · exact .inl ⟨_, m, .codePre sink run (by simpa using plain)⟩
  · refine .inr (idles (r := .error e) (m := m) ?_ quiet fun f impossible => ?_)
    · rw [codePreBody_eq, bind_apply_error run]
    · cases impossible
      cases silent

/-- A hook takes one step, or it idles; the hook before a call is left out. -/
theorem idles_or_does (h : Hook) (other : ∀ c, h ≠ .callPre c) (t : Tracker) :
    (∃ d m, h.Does t d m) ∨ h.Idles t := by
  -- a hook before an operation records nothing; one after it does what its rule does, once it has its
  -- operands back
  cases h with
  | callPre c => exact absurd rfl (other c)
  | literal v =>
    exact .inr (idles_of_calm (fun t => literalBody v t.settings.policies) rfl
      (fun _ logs => by rw [logs.settings]) (calm_literalBody _ v))
  | write target v => exact write_idles_or_does target v t
  | conditional v => exact .inr (idles_conditional v t)
  | endExpression =>
    exact .inr (idles_of_calm (fun _ => CheckedM.expectIdle "WEndExpr") rfl (fun _ _ => rfl)
      (CheckedM.calm_expectIdle _))
  | getFieldPre base offset =>
    exact .inr (idles_of_calm (fun _ => getFieldPreBody base offset) rfl (fun _ _ => rfl)
      (calm_getFieldPreBody base offset))
  | getField base offset v =>
    rcases idles_or_ok (t := t) (h := .getField base offset v)
      (fun t => getFieldBody base offset v t.settings.policies) rfl
      (fun _ logs => by rw [logs.settings]) (calm_fieldOperands _ base offset v)
      (congrFun (getFieldBody_eq _ base offset v) _) with ⟨ops, m, run⟩ | idles
    · exact .inl ⟨_, m, .read run⟩
    · exact .inr idles
  | putFieldPre base offset v =>
    exact .inr (idles_of_calm (fun t => putFieldPreBody base offset v t.settings.policies) rfl
      (fun _ logs => by rw [logs.settings]) (calm_putFieldPreBody _ base offset v))
  | putField base offset v =>
    rcases (calm_storeOperands t.settings.policies base offset v).cases t.memory with
      ⟨ops, m, run, -⟩ | ⟨e, m, run, silent, quiet⟩
    · exact .inl ⟨_, m, .store run⟩
    · have failed : putFieldAttempt base offset v t.settings.policies t.memory = (.error e, m) := by
        rw [putFieldAttempt_eq]
        exact bind_apply_error run
      refine .inr (idles_of (fun t => putFieldBody base offset v t.settings.policies) rfl
        (fun _ logs => by rw [logs.settings]) (putFieldBody_of_error failed) (quiet_refused quiet)
        fun f impossible => ?_)
      cases impossible
      cases silent
  | binaryPre op left right =>
    exact .inr (idles_of_calm (fun _ => binaryPreBody left right) rfl (fun _ _ => rfl)
      (calm_binaryPreBody left right))
  | binary op left right result =>
    rcases idles_or_ok (t := t) (h := .binary op left right result)
      (fun t => binaryBody op left right result t.settings.policies) rfl
      (fun _ logs => by rw [logs.settings]) (calm_binaryOperands _ left right result)
      (congrFun (binaryBody_eq _ op left right result) _) with ⟨ops, m, run⟩ | idles
    · exact .inl ⟨_, m, .binary run⟩
    · exact .inr idles
  | unaryPre op operand =>
    exact .inr (idles_of_calm (fun _ => unaryPreBody operand) rfl (fun _ _ => rfl)
      (calm_unaryPreBody operand))
  | unary op operand result =>
    rcases idles_or_ok (t := t) (h := .unary op operand result)
      (fun t => unaryBody operand result t.settings.policies) rfl
      (fun _ logs => by rw [logs.settings]) (calm_unaryOperands _ operand result)
      (congrFun (unaryBody_eq _ operand result) _) with ⟨⟨x, y⟩, m, run⟩ | idles
    · exact .inl ⟨_, m, .unary run⟩
    · exact .inr idles
  | callPost c result => exact callPost_idles_or_does c result t
  | enterFunction f =>
    exact .inr (idles_of_calm (fun _ => enterFunctionBody f) rfl (fun _ _ => rfl)
      (calm_enterFunctionBody f))
  | exitFunction threw =>
    exact .inr (idles_of_calm (fun _ => exitFunctionBody threw) rfl (fun _ _ => rfl)
      (calm_exitFunctionBody threw))
  | codePre code internal => exact codePre_idles_or_does code internal t
  | codePost code =>
    have same (t₀ : Tracker) (logs : t.Logs t₀) :
        codePostBody code t₀.scope.sink t₀.settings.maxLength t₀.settings.policies =
          codePostBody code t.scope.sink t.settings.maxLength t.settings.policies := by
      rw [logs.scope, logs.settings]
    rcases idles_or_ok (t := t) (h := .codePost code) (g := fun _ => [])
      (fun t => codePostBody code t.scope.sink t.settings.maxLength t.settings.policies) rfl
      same (calm_codeValue _ code) (congrFun (codePostBody_eq _ code _ _) _) with ⟨w, m, run⟩ | idles
    · exact .inl ⟨_, m, .codePost run⟩
    · exact .inr idles

/-- A store ends as its rule does; if that is refused, the store is rolled back, which does not reach
what was recorded. -/
theorem endsAs_store {base offset v : Value} {t : Tracker} {ops : Operands} {m : Memory}
    (run : storeOperands base offset v t.settings.policies t.memory = (.ok ops, m)) :
    (Hook.putField base offset v).EndsAs t
      ((m.policyOf t.settings.policies ops.base).putField t.settings.policies ops m) := by
  have hook : (Hook.putField base offset v).run = HookM.memoryHook "put_field"
    (fun t => [("base", t.render base), ("offset", t.render offset), ("value", t.render v)])
    (putFieldBody base offset v) >>= fun ops => pure [ops.base, ops.offset, ops.value] := rfl
  have attempt : putFieldAttempt base offset v t.settings.policies t.memory =
      ((m.policyOf t.settings.policies ops.base).putField t.settings.policies ops >>=
        fun _ => pure ops : CheckedM Operands) m := by
    rw [putFieldAttempt_eq, bind_apply_ok run]
    rfl
  have same (t₀ : Tracker) (logs : t.Logs t₀) : putFieldBody base offset v t₀.settings.policies =
      putFieldBody base offset v t.settings.policies := by rw [logs.settings]
  rcases stored : (m.policyOf t.settings.policies ops.base).putField t.settings.policies ops m with
    ⟨e | ⟨⟩, m'⟩
  · rw [bind_apply_error stored] at attempt
    obtain ⟨returned, memory⟩ := run_of (fun t => putFieldBody base offset v
      t.settings.policies) hook same (putFieldBody_of_error attempt)
    refine ⟨by rw [memory]; exact ⟨rfl, Nat.le_refl _⟩, fun kept => ?_, fun f found => ?_⟩
    · rcases kept with other | ⟨⟨⟩⟩
      exact absurd trivial other
    · rw [returned] at found
      cases error_of_map found
      rfl
  · rw [bind_apply_ok stored] at attempt
    obtain ⟨returned, memory⟩ := run_of (fun t => putFieldBody base offset v
      t.settings.policies) hook same (putFieldBody_of_ok attempt)
    refine ⟨by rw [memory]; exact quiet_ended m', fun _ => by rw [memory]; rfl, fun f found => ?_⟩
    rw [returned] at found
    cases error_of_map found

/-- A call of native code ends as the rule for it does. -/
theorem endsAs_native {c q : Call} {result r : Value} {t : Tracker} {m : Memory}
    (other : t.ghostOf? c = none) (native : t.memory.isNativeCall c = true)
    (run : closeCall c result t.settings.policies t.memory = (.ok (q, r), m))
    (defined : (m.valueOf r).isUndefined = false) :
    (callPost c result).EndsAs t ((Deed.native (m.policyOf t.settings.policies q.base)
      ⟨q.f, q.base, q.args, r⟩).run t.settings.policies m) := by
  obtain ⟨t₀, logs, returned, memory⟩ := run_of_body (run_callPost c result t)
  have ghosts : t₀.ghostOf? c = none := by
    rw [ghostOf?, logs.ghosts, logs.memory]
    exact other
  rcases callPostBody_apply ghosts result (t.memory.isNativeCall c) with
    ⟨q', r', m', closed, t', run', after⟩ | ⟨e, m', t', closed, -, -⟩
  all_goals rw [logs.settings, logs.memory, run] at closed
  · cases closed
    rw [run'] at returned memory
    rw [native, if_pos rfl, logs.settings, propagateCall, bind_apply, get_apply] at after
    rw [if_pos (by simpa using defined)] at after
    refine ⟨?_, fun _ => ?_, fun f found => ?_⟩
    · rw [memory]
      exact trans_of Quiet after.quiet (quiet_ended _)
    · rw [memory]
      exact congrArg (·.wraps) after
    · rw [returned] at found
      cases found
  · cases closed

/-- A hook that takes a step has recorded nothing before, records what the step does, and finds at
most what the step finds. -/
theorem Does.run {h : Hook} {t : Tracker} {d : Deed} {m : Memory} (does : h.Does t d m) :
    t.memory.Quiet m ∧ h.EndsAs t (d.run t.settings.policies m) := by
  cases does with
  | @write target v w m active run =>
    refine ⟨(calm_writeBody _ v).within.of_apply run, ?_⟩
    refine endsAs_of (h := .write target v) (a := w)
      (fun t => writeBody v t.scope.isActive t.settings.policies) rfl
      (fun _ logs => by rw [logs.scope, logs.settings]) ?_
    rw [active, writeBody_eq, bind_apply_ok run]
    rfl
  | @read base offset v ops m run =>
    refine ⟨(calm_fieldOperands _ base offset v).within.of_apply run, ?_⟩
    refine endsAs_of (h := .getField base offset v) (a := ops)
      (fun t => getFieldBody base offset v t.settings.policies) rfl
      (fun _ logs => by rw [logs.settings]) ?_
    rw [getFieldBody_eq, bind_apply_ok run]
    rfl
  | @store base offset v ops m run =>
    exact ⟨(calm_storeOperands _ base offset v).within.of_apply run, endsAs_store run⟩
  | @binary op left right result ops m run =>
    refine ⟨(calm_binaryOperands _ left right result).within.of_apply run, ?_⟩
    refine endsAs_of (h := .binary op left right result) (a := (ops.base, ops.offset, ops.value))
      (fun t => binaryBody op left right result t.settings.policies) rfl
      (fun _ logs => by rw [logs.settings]) ?_
    rw [binaryBody_eq, bind_apply_ok run]
    rfl
  | @unary op operand result x y m run =>
    refine ⟨(calm_unaryOperands _ operand result).within.of_apply run, ?_⟩
    refine endsAs_of (h := .unary op operand result) (a := (x, y))
      (fun t => unaryBody operand result t.settings.policies) rfl
      (fun _ logs => by rw [logs.settings]) ?_
    rw [unaryBody_eq, bind_apply_ok run]
    rfl
  | @native c q result r m other native run defined =>
    exact ⟨(calm_closeCall _ c result).within.of_apply run, endsAs_native other native run defined⟩
  | @codePre code internal source m sink run plain =>
    refine ⟨(calm_codeSource code internal).within.of_apply run, ?_⟩
    refine endsAs_of (h := .codePre code internal) (a := source) (g := fun _ => [])
      (fun t => codePreBody code internal t.scope.sink t.settings.maxLength) rfl
      (fun _ logs => by rw [logs.scope, logs.settings]) ?_
    rw [codePreBody_eq, bind_apply_ok run, if_neg (by simp [plain]), sink, if_pos rfl]
    rfl
  | @codePost code w m run =>
    refine ⟨(calm_codeValue _ code).within.of_apply run, ?_⟩
    refine endsAs_of (h := .codePost code) (a := code) (g := fun _ => [])
      (fun t => codePostBody code t.scope.sink t.settings.maxLength t.settings.policies) rfl
      (fun _ logs => by rw [logs.scope, logs.settings]) ?_
    rw [codePostBody_eq, bind_apply_ok run]
    rfl

end Hook

end ShadowTaint
