import ShadowTaint.Proofs.Steps
/-!
# Runs of operations

A host runs the analysed program operation by operation. Inside an operation, between its two hooks,
functions of the program may be entered, in whose bodies more operations run. This file says what
such runs are; everything that the host is free to choose is left open.

## Main definitions

- `Plain`, `Paired`: operations that consist of hooks only, and those that the host carries out
  between two hooks.
- `Runs`: a run, with the fault that ended it.

## Main statements

- `Runs.follows`: a run grows the memory.
-/

namespace ShadowTaint

open Memory Tracker

/-- The operations that consist of hooks only. -/
inductive Plain where
  | literal (v : Value)
  | write (target v : Value)
  | conditional (v : Value)
  | endExpression
  | evaluate (code : Value) (internal : Bool)

/-- Runs the hooks of an operation. Code goes from the first of its hooks to the second one. -/
def Plain.run : Plain → HookM Unit
  | literal v => do
    let _ ← Tracker.literal v
    return
  | write target v => do
    let _ ← Tracker.write target v
    return
  | conditional v => do
    let _ ← Tracker.conditional v
    return
  | endExpression => Tracker.endExpression
  | evaluate code internal => do
    let source ← codePre code internal
    let _ ← codePost source
    return

/-- The operations that the host carries out between two hooks. -/
inductive Paired where
  | getField (base offset : Value)
  | putField (base offset v : Value)
  | binary (op : String) (left right : Value)
  | unary (op : String) (operand : Value)
  | call (c : Call)

namespace Paired

/-- The operands of an operation, in order. -/
def operands : Paired → List Value
  | getField base offset => [base, offset]
  | putField base offset v => [base, offset, v]
  | binary _ left right => [left, right]
  | unary _ operand => [operand]
  | call c => c.operands

/-- The hook before an operation. Returns the operation with the operands that the host gets. -/
def before : Paired → HookM Paired
  | getField base offset => do
    let (base, offset) ← getFieldPre base offset
    return getField base offset
  | putField base offset v => do
    let ops ← putFieldPre base offset v
    return putField ops.base ops.offset ops.value
  | binary op left right => do
    let (left, right) ← binaryPre op left right
    return binary op left right
  | unary op operand => do return unary op (← unaryPre op operand)
  | call c => do return call (← callPre c)

/-- The hook after an operation with the result that the host passes. Returns the operation with the
operands that come back, and the result, if it has one. -/
def after (result : Value) : Paired → HookM (Paired × Option Value)
  | getField base offset => do
    let ops ← Tracker.getField base offset result
    return (getField ops.base ops.offset, some ops.value)
  | putField base offset v => do
    let ops ← Tracker.putField base offset v
    return (putField ops.base ops.offset ops.value, none)
  | binary op left right => do
    let (left, right, result) ← Tracker.binary op left right result
    return (binary op left right, some result)
  | unary op operand => do
    let (operand, result) ← Tracker.unary op operand result
    return (unary op operand, some result)
  | call c => do
    let (c, result) ← callPost c result
    return (call c, some result)

/-- Whether function bodies may be entered inside the operation. Ghost functions have none. -/
def entersBodies (t : Tracker) : Paired → Bool
  | call c => (t.ghostOf? c).isNone
  | _ => true

/-- The site of a call is none that stands for functions entered without a call. -/
def Regular : Paired → Prop
  | call c => c.site ≠ functionEntrySite
  | _ => True

/-- What happens inside an operation does not make the hook after it take another branch than the
hook before it: the base of a store lies on the heap and is not tagged anew, and the function that is
called does not turn into a ghost function. -/
def Undisturbed (t t' : Tracker) : Paired → Paired → Prop
  | _, putField base _ _ =>
    (∀ id, base.object? = some id → id < t.memory.heap.objects.size) ∧
      t'.memory.heap.importTag? base = t.memory.heap.importTag? base
  | call c, call c' => t.ghostOf? c = none → t'.ghostOf? c' = none
  | _, _ => True

end Paired

/-- The parts that a run is made of. -/
inductive Phase where
  /-- One complete operation. -/
  | operation
  /-- Complete operations, one after the other. -/
  | operations
  /-- What happens between the two hooks of an operation. -/
  | inside (bodies : Bool)

/-- A run leads from one state to another. It ends early if a hook fails, and then with its fault.
The values that the host passes to hooks and what it does on the heap are left open. -/
inductive Runs : Phase → Tracker → Option Fault → Tracker → Prop where
  | plain {t t' : Tracker} (p : Plain) (run : p.run t = (.ok (), t')) :
      Runs .operation t none t'
  | plainFails {t t' : Tracker} {e : Fault} (p : Plain) (run : p.run t = (.error e, t')) :
      Runs .operation t (some e) t'
  | paired {t t₁ t₂ t₃ : Tracker} {p q : Paired} {r : Paired × Option Value} (result : Value)
      (regular : p.Regular) (before : p.before t = (.ok q, t₁))
      (inside : Runs (.inside (p.entersBodies t)) t₁ none t₂)
      (undisturbed : Paired.Undisturbed t t₂ p q) (after : q.after result t₂ = (.ok r, t₃)) :
      Runs .operation t none t₃
  | beforeFails {t t₁ : Tracker} {p : Paired} {e : Fault} (before : p.before t = (.error e, t₁)) :
      Runs .operation t (some e) t₁
  | insideFails {t t₁ t₂ : Tracker} {p q : Paired} {e : Fault} (regular : p.Regular)
      (before : p.before t = (.ok q, t₁))
      (inside : Runs (.inside (p.entersBodies t)) t₁ (some e) t₂) : Runs .operation t (some e) t₂
  | afterFails {t t₁ t₂ t₃ : Tracker} {p q : Paired} {e : Fault} (result : Value)
      (regular : p.Regular) (before : p.before t = (.ok q, t₁))
      (inside : Runs (.inside (p.entersBodies t)) t₁ none t₂)
      (undisturbed : Paired.Undisturbed t t₂ p q) (after : q.after result t₂ = (.error e, t₃)) :
      Runs .operation t (some e) t₃
  | done (t : Tracker) : Runs .operations t none t
  | next {t t₁ t₂ : Tracker} {fault : Option Fault} (first : Runs .operation t none t₁)
      (rest : Runs .operations t₁ fault t₂) : Runs .operations t fault t₂
  | nextFails {t t₁ : Tracker} {e : Fault} (first : Runs .operation t (some e) t₁) :
      Runs .operations t (some e) t₁
  | between {t t₂ : Tracker} {fault : Option Fault} (heap : Heap)
      (evolves : t.memory.heap.Evolves heap)
      (rest : Runs .operations { t with memory := { t.memory with heap } } fault t₂) :
      Runs .operations t fault t₂
  | nothing {bodies : Bool} (t : Tracker) : Runs (.inside bodies) t none t
  | host {t t₂ : Tracker} {bodies : Bool} {fault : Option Fault} (heap : Heap)
      (evolves : t.memory.heap.Evolves heap)
      (rest : Runs (.inside bodies) { t with memory := { t.memory with heap } } fault t₂) :
      Runs (.inside bodies) t fault t₂
  | body {t t₁ t₂ t₃ t₄ : Tracker} {fault : Option Fault} (f : Value)
      (enter : enterFunction f t = (.ok (), t₁)) (operations : Runs .operations t₁ none t₂)
      (exit : exitFunction false t₂ = (.ok (), t₃)) (rest : Runs (.inside true) t₃ fault t₄) :
      Runs (.inside true) t fault t₄
  | enterFails {t t₁ : Tracker} {e : Fault} (f : Value)
      (enter : enterFunction f t = (.error e, t₁)) : Runs (.inside true) t (some e) t₁
  | bodyFails {t t₁ t₂ : Tracker} {e : Fault} (f : Value)
      (enter : enterFunction f t = (.ok (), t₁)) (operations : Runs .operations t₁ (some e) t₂) :
      Runs (.inside true) t (some e) t₂
  | exitFails {t t₁ t₂ t₃ : Tracker} {e : Fault} (f : Value)
      (enter : enterFunction f t = (.ok (), t₁)) (operations : Runs .operations t₁ none t₂)
      (exit : exitFunction false t₂ = (.error e, t₃)) : Runs (.inside true) t (some e) t₃

section Following

variable {α : Type}

/-- What holds of a hook with its values listed holds of the hook. -/
theorem Hook.within_of_run {Q : Tracker → Tracker → Prop} {x : HookM α} {f : α → HookM (List Value)}
    (h : Hook) (within : Within Q h.run) (run : h.run = x >>= f) (pure : ∀ a t, (f a t).2 = t) :
    Within Q x := by
  intro t
  have related := within t
  rwa [run, snd_bind_of_pure pure] at related

theorem Hook.follows_of_run {x : HookM α} {f : α → HookM (List Value)} (h : Hook)
    (run : h.run = x >>= f) (pure : ∀ a t, (f a t).2 = t) : Within (Follows Grows) x :=
  h.within_of_run h.follows run pure

theorem Plain.follows (p : Plain) : Within (Follows Grows) p.run := by
  cases p with
  | literal v => exact .bind_except ((Hook.literal v).follows_of_run rfl fun _ _ => rfl) fun _ =>
      .pure_except _
  | write target v =>
    exact .bind_except ((Hook.write target v).follows_of_run rfl fun _ _ => rfl) fun _ =>
      .pure_except _
  | conditional v =>
    exact .bind_except ((Hook.conditional v).follows_of_run rfl fun _ _ => rfl) fun _ =>
      .pure_except _
  | endExpression => exact Hook.endExpression.follows_of_run rfl fun _ _ => rfl
  | evaluate code internal =>
    exact .bind_except ((Hook.codePre code internal).follows_of_run rfl fun _ _ => rfl)
      fun source => .bind_except ((Hook.codePost source).follows_of_run rfl fun _ _ => rfl)
        fun _ => .pure_except _

theorem Paired.follows_before (p : Paired) : Within (Follows Grows) p.before := by
  cases p with
  | getField base offset =>
    exact .bind_except ((Hook.getFieldPre base offset).follows_of_run rfl fun _ _ => rfl)
      fun _ => .pure_except _
  | putField base offset v =>
    exact .bind_except ((Hook.putFieldPre base offset v).follows_of_run rfl fun _ _ => rfl)
      fun _ => .pure_except _
  | binary op left right =>
    exact .bind_except ((Hook.binaryPre op left right).follows_of_run rfl fun _ _ => rfl)
      fun _ => .pure_except _
  | unary op operand =>
    exact .bind_except ((Hook.unaryPre op operand).follows_of_run rfl fun _ _ => rfl)
      fun _ => .pure_except _
  | call c =>
    exact .bind_except ((Hook.callPre c).follows_of_run rfl fun _ _ => rfl) fun _ => .pure_except _

theorem Paired.follows_after (p : Paired) (result : Value) :
    Within (Follows Grows) (p.after result) := by
  cases p with
  | getField base offset =>
    exact .bind_except ((Hook.getField base offset result).follows_of_run rfl fun _ _ => rfl)
      fun _ => .pure_except _
  | putField base offset v =>
    exact .bind_except ((Hook.putField base offset v).follows_of_run rfl fun _ _ => rfl)
      fun _ => .pure_except _
  | binary op left right =>
    exact .bind_except ((Hook.binary op left right result).follows_of_run rfl fun _ _ => rfl)
      fun _ => .pure_except _
  | unary op operand =>
    exact .bind_except ((Hook.unary op operand result).follows_of_run rfl fun _ _ => rfl)
      fun _ => .pure_except _
  | call c =>
    exact .bind_except ((Hook.callPost c result).follows_of_run rfl fun _ _ => rfl)
      fun _ => .pure_except _

theorem follows_enterFunction (f : Value) : Within (Follows Grows) (enterFunction f) :=
  (Hook.enterFunction f).follows_of_run rfl fun _ _ => rfl

theorem follows_exitFunction (threw : Bool) : Within (Follows Grows) (exitFunction threw) :=
  (Hook.exitFunction threw).follows_of_run rfl fun _ _ => rfl

theorem follows_host {t : Tracker} {heap : Heap} (evolves : t.memory.heap.Evolves heap) :
    Follows Grows t { t with memory := { t.memory with heap } } :=
  ⟨rfl, rfl, evolves, fun _ _ h => h, Nat.le_refl _, id⟩

end Following

/-- Whether or not it ends early, a run grows the memory. -/
theorem Runs.follows {phase : Phase} {t t' : Tracker} {fault : Option Fault}
    (h : Runs phase t fault t') : Follows Grows t t' := by
  induction h with
  | plain p run | plainFails p run => exact (p.follows).of_apply run
  | @paired t t₁ t₂ t₃ p q r result _ before _ _ after inside =>
    have opened := p.follows_before.of_apply before
    have closed := (q.follows_after result).of_apply after
    exact trans_of (Follows Grows) opened (trans_of (Follows Grows) inside closed)
  | @beforeFails t t₁ p e before => exact p.follows_before.of_apply before
  | @insideFails t t₁ t₂ p q e _ before _ inside =>
    exact trans_of (Follows Grows) (p.follows_before.of_apply before) inside
  | @afterFails t t₁ t₂ t₃ p q e result _ before _ _ after inside =>
    have opened := p.follows_before.of_apply before
    have closed := (q.follows_after result).of_apply after
    exact trans_of (Follows Grows) opened (trans_of (Follows Grows) inside closed)
  | done t | nothing t => exact refl_of (Follows Grows) t
  | next _ _ first rest => exact trans_of (Follows Grows) first rest
  | nextFails _ first => exact first
  | between heap evolves _ rest | host heap evolves _ rest =>
    exact trans_of (Follows Grows) (follows_host evolves) rest
  | body f enter _ exit _ operations rest =>
    have entered := (follows_enterFunction f).of_apply enter
    have left := (follows_exitFunction false).of_apply exit
    exact trans_of (Follows Grows) (trans_of (Follows Grows) entered operations)
      (trans_of (Follows Grows) left rest)
  | enterFails f enter => exact (follows_enterFunction f).of_apply enter
  | bodyFails f enter _ operations =>
    exact trans_of (Follows Grows) ((follows_enterFunction f).of_apply enter) operations
  | exitFails f enter _ exit operations =>
    have entered := (follows_enterFunction f).of_apply enter
    have left := (follows_exitFunction false).of_apply exit
    exact trans_of (Follows Grows) (trans_of (Follows Grows) entered operations) left

end ShadowTaint
