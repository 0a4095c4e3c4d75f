import ShadowTaint.Proofs.Steps
/-!
# Which values hooks return

A shadow is owned if its handle stands for what the shadow carries. A hook that succeeds returns owned
values, if it was given owned ones.

## Main definitions

- `Yields`: what holds when an action succeeds, from what held before.
- `Memory.Owns`: the memory owns some values.

## Main statements

- `Hook.yields_owned`: a hook returns owned values.
-/

namespace ShadowTaint

open Memory Tracker

/-- If the action succeeds from a state with the first property, its value and the state that it leaves
have the second one. -/
def Yields {σ ε α : Type} (P : σ → Prop) (Q : α → σ → Prop) (x : ExceptT ε (StateM σ) α) : Prop :=
  ∀ s a s', P s → x s = (.ok a, s') → Q a s'

namespace Yields

variable {σ ε α β : Type} {P P' : σ → Prop} {Q Q' : α → σ → Prop} {R : β → σ → Prop}

theorem pre {x : ExceptT ε (StateM σ) α} (h : Yields P Q x) (imp : ∀ s, P' s → P s) :
    Yields P' Q x := fun s a s' hs run => h s a s' (imp s hs) run

protected theorem pure {a : α} (h : ∀ s, P s → Q a s) :
    Yields P Q (pure a : ExceptT ε (StateM σ) α) := by
  intro s b s' hs run
  rw [pure_apply_except] at run
  cases run
  exact h s hs

protected theorem bind {x : ExceptT ε (StateM σ) α} {f : α → ExceptT ε (StateM σ) β}
    (hx : Yields P Q x) (hf : ∀ a, Yields (Q a) R (f a)) : Yields P R (x >>= f) := by
  intro s b s'' hs run
  obtain ⟨a, s', first, second⟩ := bind_eq_ok.mp run
  exact hf a s' b s'' (hx s a s' hs first) second

protected theorem get : Yields P (fun _ => P) (get : ExceptT ε (StateM σ) σ) := by
  intro s a s' hs run
  cases run
  exact hs

end Yields

namespace Memory

/-- The memory owns all of the values. -/
def Owns (vs : List Value) (m : Memory) : Prop := ∀ v ∈ vs, v.OwnedBy m.shadow

theorem Owns.sub {m : Memory} {vs ws : List Value} (h : m.Owns vs) (sub : ws ⊆ vs) : m.Owns ws :=
  fun v hv => h v (sub hv)

theorem Owns.cons {m : Memory} {v : Value} {vs : List Value} (hv : v.OwnedBy m.shadow)
    (h : m.Owns vs) : m.Owns (v :: vs) := by
  intro w hw
  rcases List.mem_cons.mp hw with rfl | hw
  · exact hv
  · exact h w hw

theorem Owns.append {m : Memory} {vs ws : List Value} (h : m.Owns vs) (h' : m.Owns ws) :
    m.Owns (vs ++ ws) := fun v hv => (List.mem_append.mp hv).elim (h v) (h' v)

theorem Grows.owns {m m' : Memory} (grows : m.Grows m') {vs : List Value} (h : m.Owns vs) :
    m'.Owns vs := fun v hv => grows.ownedBy (h v hv)

end Memory

namespace CheckedM

variable {α : Type} (vs : List Value)

theorem yields_grows {x : CheckedM α} (h : Within Grows x) :
    Yields (Owns vs) (fun _ => Owns vs) x := by
  intro m a m' owns run
  exact (h.of_apply run).owns owns

theorem yields_keeps {x : CheckedM α} (h : Within Keeps x) :
    Yields (Owns vs) (fun _ => Owns vs) x := yields_grows vs h.grows

theorem yields_marks {x : MemoryM α} (h : Within Marks x) :
    Yields (Owns vs) (fun _ => Owns vs) (liftM x : CheckedM α) := yields_keeps vs (keeps_of_marks h)

/-- Wrapping an owned value returns an owned one. -/
theorem yields_wrap (levels : Levels) (v : Value) :
    Yields (Owns (v :: vs)) (fun w => Owns (w :: vs)) (liftM (MemoryM.wrap levels v) :
      CheckedM Value) := by
  intro m w m' owns run
  rw [lift_apply] at run
  cases run
  have grows := (keeps_wrap levels v m).toGrows
  exact .cons (MemoryM.ownedBy_wrap levels (owns v List.mem_cons_self))
    (grows.owns (owns.sub (List.subset_cons_self v vs)))

/-- What is behind a value has no shadow. -/
theorem yields_unwrap (v : Value) :
    Yields (Owns vs) (fun r => Owns (r :: vs)) (liftM (MemoryM.unwrap v) : CheckedM Value) := by
  intro m r m' owns run
  rw [lift_apply] at run
  cases run
  exact .cons (Value.ownedBy_of_raw (MemoryM.raw_unwrap v m))
    ((keeps_unwrap v m).toGrows.owns owns)

end CheckedM

namespace Tracker

open CheckedM

variable (levels : Levels)

theorem yields_literalBody (v : Value) :
    Yields (Owns [v]) (fun w => Owns [w]) (literalBody v levels) :=
  .bind (yields_keeps [v] (CheckedM.keeps_expectIdle _)) fun _ =>
    .bind (yields_wrap [] levels v) fun w =>
    .bind (yields_keeps [w] (CheckedM.within_checkPending _ _)) fun _ => .pure fun _ h => h

theorem yields_writeBody (v : Value) (inScope : Bool) :
    Yields (Owns [v]) (fun w => Owns [w]) (writeBody v inScope levels) := by
  have rest (w : Value) : Yields (Owns [w]) (fun w => Owns [w]) (do
      CheckedM.checkPending "WWrite" 0
      MemoryM.modifyShadow fun s => { s with context := .unset }
      if inScope then taintWritten w
      return w : CheckedM Value) := by
    refine .bind (yields_keeps _ (CheckedM.within_checkPending _ _)) fun _ =>
      .bind (yields_keeps _ fun m => m.keeps_ended) fun _ => ?_
    split
    · exact .bind (yields_marks _ (marks_taintWritten w)) fun _ => .pure fun _ h => h
    · exact .pure fun _ h => h
  refine .bind .get fun m => .bind (yields_keeps _ (CheckedM.within_checkPending _ _)) fun _ => ?_
  by_cases conditional : m.shadow.context = .conditional
  · simp only [if_pos conditional]
    exact .bind (yields_wrap [] levels v) rest
  · simp only [if_neg conditional]
    exact .bind (.pure fun _ h => h) rest

theorem yields_conditionalBody (v : Value) :
    Yields (Owns [v]) (fun r => Owns [r]) (conditionalBody v) :=
  .bind (yields_keeps _ (CheckedM.keeps_expectIdle _)) fun _ =>
    .bind (yields_unwrap [v] v) fun r =>
    .bind (yields_keeps [r, v] (CheckedM.within_checkPending _ _)) fun _ =>
      .pure fun _ h => h.sub (by simp)

theorem yields_getFieldPreBody (base offset : Value) :
    Yields (Owns [base, offset]) (fun r => Owns [r.1, r.2]) (getFieldPreBody base offset) :=
  .bind (yields_keeps [] (CheckedM.keeps_expectIdle _) |>.pre fun _ h => h.sub (by simp)) fun _ =>
    .bind (yields_unwrap [] base) fun b => .bind (yields_unwrap [b] offset) fun o =>
      .pure fun _ h => h.sub (by simp)

theorem yields_getFieldBody (base offset v : Value) :
    Yields (Owns [base, offset, v]) (fun ops => Owns [ops.base, ops.offset, ops.value])
      (getFieldBody base offset v levels) := by
  refine .bind (yields_keeps _ fun m => (spreads_nameFunction v offset m).toKeeps) fun _ =>
    .bind (.pre (yields_wrap [base, v] levels offset) fun _ h => h.sub (by simp)) fun o =>
    .bind (.pre (yields_wrap [o, v] levels base) fun _ h => h.sub (by simp)) fun b =>
    .bind (.pre (yields_wrap [b, o] levels v) fun _ h => h.sub (by simp)) fun w =>
    .bind (yields_keeps _ (CheckedM.within_checkPending _ _)) fun _ => .bind .get fun m => ?_
  exact .bind (yields_marks _ (Policy.marks_getField _ _ _)) fun _ =>
    .pure fun _ h => h.sub (by simp)

theorem yields_prepareStored (policy : Policy) (v : Value) (vs : List Value) :
    Yields (Owns (v :: vs)) (fun r => Owns (r :: vs))
      (liftM (MemoryM.prepareStored policy v) : CheckedM Value) := by
  by_cases strips : policy = .container .array .imprecise
  · rw [MemoryM.prepareStored_of_strips strips]
    exact (yields_unwrap _ v).pre fun _ h => h.sub (List.subset_cons_self v vs)
  · rw [MemoryM.prepareStored_of_keeps strips]
    exact .pure fun _ h => h

theorem yields_restoreStored (policy : Policy) (v : Value) (vs : List Value) :
    Yields (Owns (v :: vs)) (fun r => Owns (r :: vs))
      (liftM (MemoryM.restoreStored levels policy v) : CheckedM Value) := by
  by_cases strips : policy = .container .array .imprecise
  · rw [MemoryM.restoreStored_of_strips levels strips]
    exact yields_wrap vs levels v
  · rw [MemoryM.restoreStored_of_keeps levels strips]
    exact .pure fun _ h => h

theorem yields_putFieldPreBody (base offset v : Value) :
    Yields (Owns [base, offset, v]) (fun ops => Owns [ops.base, ops.offset, ops.value])
      (putFieldPreBody base offset v levels) :=
  .bind (yields_keeps [v] (CheckedM.keeps_expectIdle _) |>.pre fun _ h => h.sub (by simp))
    fun _ => .bind (yields_unwrap [v] base) fun b => .bind (yields_unwrap [b, v] offset) fun o =>
    .bind .get fun m => .bind (.pre (yields_prepareStored _ v [b, o]) fun _ h => h.sub (by simp))
      fun r => .pure fun _ h => h.sub (by simp)

theorem yields_putFieldAttempt (base offset v : Value) :
    Yields (Owns [base, offset, v]) (fun ops => Owns [ops.base, ops.offset, ops.value])
      (putFieldAttempt base offset v levels) := by
  have recorded (policy : Policy) (ops : Operands) (vs : List Value) :
      Yields (Owns vs) (fun _ => Owns vs) (policy.putField levels ops) := by
    refine yields_grows vs fun m => ?_
    rcases policy.putField_cases levels ops m with ⟨m', run, marks⟩ | ⟨f, m', run, used⟩
    · rw [run]
      exact marks.spreads.toGrows
    · rw [run]
      obtain ⟨count, rfl⟩ := used
      exact ⟨.refl _, fun _ _ h => h, Nat.le_refl _, fun h => h⟩
  exact .bind .get fun m =>
    .bind (.pre (yields_restoreStored levels _ v [base, offset]) fun _ h => h.sub (by simp))
      fun r =>
    .bind (.pre (yields_wrap [base, r] levels offset) fun _ h => h.sub (by simp)) fun o =>
    .bind (.pre (yields_wrap [o, r] levels base) fun _ h => h.sub (by simp)) fun b =>
    .bind (yields_keeps _ (CheckedM.within_checkPending _ _)) fun _ => .bind .get fun m =>
    .bind (recorded _ _ _) fun _ => .pure fun _ h => h.sub (by simp)

theorem yields_putFieldBody (base offset v : Value) :
    Yields (Owns [base, offset, v]) (fun ops => Owns [ops.base, ops.offset, ops.value])
      (putFieldBody base offset v levels) := by
  intro m ops m' owns run
  rcases attempt : putFieldAttempt base offset v levels m with ⟨e | ops', m''⟩
  · rw [putFieldBody_of_error attempt] at run
    cases run
  · rw [putFieldBody_of_ok attempt] at run
    cases run
    exact yields_putFieldAttempt levels base offset v m ops m' owns attempt

theorem yields_binaryPreBody (left right : Value) :
    Yields (Owns [left, right]) (fun r => Owns [r.1, r.2]) (binaryPreBody left right) :=
  .bind (yields_keeps [] (CheckedM.keeps_expectIdle _) |>.pre fun _ h => h.sub (by simp)) fun _ =>
    .bind (yields_unwrap [] left) fun l => .bind (yields_unwrap [l] right) fun r =>
      .pure fun _ h => h.sub (by simp)

theorem yields_binaryBody (op : String) (left right result : Value) :
    Yields (Owns [left, right, result]) (fun r => Owns [r.1, r.2.1, r.2.2])
      (binaryBody op left right result levels) := by
  refine .bind (.pre (yields_wrap [left, result] levels right) fun _ h => h.sub (by simp))
      fun r =>
    .bind (.pre (yields_wrap [r, result] levels left) fun _ h => h.sub (by simp)) fun l =>
    .bind (.pre (yields_wrap [l, r] levels result) fun _ h => h.sub (by simp)) fun w =>
    .bind (yields_keeps _ (CheckedM.within_checkPending _ _)) fun _ => .bind .get fun m => ?_
  exact .bind (yields_marks _ (Policy.marks_binary _ _ _ _)) fun _ =>
    .pure fun _ h => h.sub (by simp)

theorem yields_unaryPreBody (operand : Value) :
    Yields (Owns [operand]) (fun r => Owns [r]) (unaryPreBody operand) :=
  .bind (yields_keeps [] (CheckedM.keeps_expectIdle _) |>.pre fun _ h => h.sub (by simp)) fun _ =>
    yields_unwrap [] operand

theorem yields_unaryBody (operand result : Value) :
    Yields (Owns [operand, result]) (fun r => Owns [r.1, r.2])
      (unaryBody operand result levels) := by
  refine .bind (yields_wrap [result] levels operand) fun x =>
    .bind (.pre (yields_wrap [x] levels result) fun _ h => h.sub (by simp)) fun w =>
    .bind (yields_keeps _ (CheckedM.within_checkPending _ _)) fun _ => .bind .get fun m => ?_
  exact .bind (yields_marks _ (Policy.marks_unary _ _ _ _)) fun _ =>
    .pure fun _ h => h.sub (by simp)

theorem yields_prepareArguments (policy : Policy) (f : Value) {args vs : List Value}
    (sub : args ⊆ vs) : Yields (Owns vs) (fun rs => Owns (rs ++ vs))
      (liftM (MemoryM.prepareArguments policy f args) : CheckedM (List Value)) := by
  intro m rs m' owns run
  rw [lift_apply] at run
  cases run
  have grows := (keeps_prepareArguments policy f args m).toGrows
  refine .append (fun r hr => ?_) (grows.owns owns)
  rcases MemoryM.passed_prepareArguments policy f args m r hr with raw | passed
  · exact Value.ownedBy_of_raw raw
  · exact grows.ownedBy (owns r (sub passed))

theorem yields_openCall (c : Call) (native : Bool) :
    Yields (Owns c.operands) (fun q => Owns q.operands) (openCall c native levels) := by
  have opened (f base : Value) : Yields (Owns (base :: f :: c.operands)) (fun q => Owns q.operands)
      (do
        let m ← get
        let args ← MemoryM.prepareArguments (levels.policyFor m.heap base) c.f c.args
        MemoryM.modifyShadow (·.saveFrame (.ofCall true native) c.site)
        return { c with f, base, args } : CheckedM Call) := by
    have sub : c.args ⊆ base :: f :: c.operands := fun v hv => by simp [Call.operands, hv]
    refine .bind .get fun m => .bind (yields_prepareArguments _ _ sub) fun args =>
      .bind (yields_keeps _ (MemoryM.keeps_saveFrame _ _)) fun _ => .pure fun m h => h.sub ?_
    intro v hv
    simp only [Call.operands, List.mem_cons, List.mem_append] at hv ⊢
    tauto
  refine .bind (yields_keeps _ (CheckedM.keeps_expectIdle _)) fun _ =>
    .bind (yields_unwrap _ c.f) fun f => ?_
  split
  · refine .bind (yields_keeps _ (MemoryM.keeps_saveFrame _ _)) fun _ => .pure fun m h => h.sub ?_
    intro v hv
    simp only [Call.operands, List.mem_cons] at hv ⊢
    tauto
  · split
    · exact .bind (yields_unwrap _ c.base) (opened f)
    · refine .bind (.pure fun m h => ?_) (opened f)
      exact .cons (h c.base (by simp [Call.operands])) h

theorem yields_restoreArguments (policy : Policy) (f : Value) (args vs : List Value) :
    Yields (Owns (args ++ vs)) (fun ws => Owns (ws ++ vs))
      (liftM (MemoryM.restoreArguments levels policy f args) : CheckedM (List Value)) := by
  intro m ws m' owns run
  rw [lift_apply] at run
  cases run
  have grows := (keeps_restoreArguments levels policy f args m).toGrows
  exact .append (MemoryM.ownedBy_restoreArguments levels policy f (owns.sub (by simp)))
    (grows.owns (owns.sub (by simp)))

theorem yields_rewrapFunction (c : Call) (result : Value) :
    Yields (Owns (result :: c.operands)) (fun r => Owns (r.2 :: r.1.operands))
      (rewrapFunction levels result c) := by
  refine .bind (.pre (yields_wrap (result :: c.base :: c.args) levels c.f) fun m h => h.sub ?_)
      fun f =>
    .bind (.pre (yields_wrap (f :: c.base :: c.args) levels result) fun m h => h.sub ?_) fun w =>
    .bind (yields_keeps _ (CheckedM.within_checkPending _ _)) fun _ => .pure fun m h => h
  · intro v hv
    simp only [Call.operands, List.mem_cons] at hv ⊢
    tauto
  · intro v hv
    simp only [List.mem_cons] at hv ⊢
    tauto

theorem yields_rewrapReceiver (c : Call) (result : Value) :
    Yields (Owns (result :: c.operands)) (fun c => Owns (result :: c.operands))
      (rewrapReceiver levels c) := by
  unfold rewrapReceiver
  split
  · refine .bind (.pre (yields_wrap (result :: c.f :: c.args) levels c.base) fun m h => h.sub ?_)
      fun base => .pure fun m h => h.sub ?_
    · intro v hv
      simp only [Call.operands, List.mem_cons] at hv ⊢
      tauto
    · intro v hv
      simp only [Call.operands, List.mem_cons] at hv ⊢
      tauto
  · exact .pure fun m h => h

theorem yields_rewrapCall (c : Call) (result : Value) :
    Yields (Owns (result :: c.operands)) (fun r => Owns (r.2 :: r.1.operands))
      (rewrapCall c result levels) := by
  rcases Bool.eq_false_or_eq_true c.external with outside | inside
  · intro m r m' owns run
    rcases restored : MemoryM.restoreArguments levels (m.policyOf levels c.base) c.f c.args m with
      ⟨args, m₁⟩
    rw [rewrapCall_of_outside outside restored] at run
    refine Yields.bind (yields_rewrapReceiver levels { c with args } result)
      (fun c => yields_rewrapFunction levels c result) m₁ r m' ?_ run
    refine (yields_restoreArguments levels (m.policyOf levels c.base) c.f c.args [result, c.f, c.base] m args m₁
      (owns.sub ?_) ?_).sub ?_
    · intro v hv
      simp only [Call.operands, List.mem_cons, List.mem_append] at hv ⊢
      tauto
    · rw [lift_apply, restored]
    · intro v hv
      simp only [Call.operands, List.mem_cons, List.mem_append] at hv ⊢
      tauto
  · rw [rewrapCall_of_inside inside]
    exact yields_rewrapFunction levels c result

theorem yields_closeCall (c : Call) (result : Value) :
    Yields (Owns (result :: c.operands)) (fun r => Owns (r.2 :: r.1.operands))
      (closeCall c result levels) := by
  intro m r m' owns run
  rcases ShadowState.restoreFrame_cases m.shadow c.site with
    ⟨frame, rest, -, found, -, -⟩ | failed
  · obtain ⟨s, restored, -, keeps, -⟩ := restoreFrame_ok found
    rw [closeCall_of_restored restored] at run
    exact yields_rewrapCall levels c result _ r m' (keeps.toGrows.owns owns) run
  · rw [closeCall_of_failed failed] at run
    cases run

end Tracker

namespace HookM

variable {α : Type} {vs : List Value} {f : α → List Value}

theorem yields_onMemory {P : Memory → Prop} {Q : α → Memory → Prop} {x : CheckedM α}
    (h : Yields P Q x) : Yields (fun t => P t.memory) (fun a t => Q a t.memory) (onMemory x) := by
  intro t a t' hp run
  rw [onMemory_apply] at run
  obtain ⟨r, m', inner⟩ : ∃ r m', x t.memory = (r, m') := ⟨_, _, rfl⟩
  rw [inner] at run
  cases run
  exact h t.memory a m' hp inner

theorem yields_follows (vs : List Value) {x : HookM α} (h : Within (Follows Keeps) x) :
    Yields (fun t => Owns vs t.memory) (fun _ t => Owns vs t.memory) x := by
  intro t a t' owns run
  exact (h.of_apply run).memory.toGrows.owns owns

theorem yields_hook {name : String} {operands : Tracker → List (String × String)} {body : HookM α}
    (h : Yields (fun t => Owns vs t.memory) (fun a t => Owns (f a) t.memory) body) :
    Yields (fun t => Owns vs t.memory) (fun a t => Owns (f a) t.memory)
      (hook name operands body) := by
  intro t a t' owns run
  obtain ⟨t₀, t₂, logs, hooked, ended⟩ := hook_run name operands body t
  rw [run] at hooked
  obtain ⟨inner, rfl⟩ := Prod.mk.inj hooked
  have owns₀ : Owns vs t₀.memory := by
    rw [logs.memory]
    exact owns
  have owned := h t₀ a (body t₀).2 owns₀ (Prod.ext inner.symm rfl)
  show Owns (f a) t'.memory
  rw [ended.memory]
  exact (keeps_ended _).toGrows.owns owned

theorem yields_memoryHook {name : String} {operands : Tracker → List (String × String)}
    {body : Levels → CheckedM α} (h : ∀ levels, Yields (Owns vs) (fun a => Owns (f a)) (body levels)) :
    Yields (fun t => Owns vs t.memory) (fun a t => Owns (f a) t.memory)
      (memoryHook name operands body) :=
  yields_hook (.bind .get fun _ => yields_onMemory (h _))

end HookM

namespace Tracker

open HookM

theorem yields_callPreBody (c : Call) (native : Bool) :
    Yields (fun t => Owns c.operands t.memory) (fun q t => Owns q.operands t.memory)
      (callPreBody c native) := by
  refine .bind (yields_follows _ (follows_checkCall c)) fun _ => .bind .get fun t => ?_
  split
  · exact yields_onMemory (yields_openCall _ c native)
  · refine .bind (yields_follows _ (follows_onMemory (CheckedM.keeps_expectIdle _))) fun _ =>
      .bind (yields_follows _ ?_) fun _ => .pure fun t h => h
    exact (Ghost.modest_run _ _).marks.mono fun _ _ h => h.mono fun _ _ h => h.spreads.toKeeps

theorem yields_callPre (c : Call) :
    Yields (fun t => Owns c.operands t.memory) (fun q t => Owns q.operands t.memory)
      (callPre c) := by
  unfold callPre
  refine .bind .get fun t => ?_
  refine yields_hook (f := Call.operands) ?_
  exact yields_callPreBody { c with external := t.memory.isExternalCall c } _

theorem yields_callPostBody (c : Call) (result : Value) (native : Bool) :
    Yields (fun t => Owns (result :: c.operands) t.memory)
      (fun r t => Owns (r.2 :: r.1.operands) t.memory) (callPostBody c result native) := by
  have spread {x : HookM Unit} (vs : List Value) (h : Within (Follows Spreads) x) :
      Yields (fun t => Owns vs t.memory) (fun _ t => Owns vs t.memory) x :=
    yields_follows vs (h.mono fun _ _ h => h.mono fun _ _ h => h.toKeeps)
  have rest (t : Tracker) (r : Call × Value) :
      Yields (fun t => Owns (r.2 :: r.1.operands) t.memory)
        (fun r t => Owns (r.2 :: r.1.operands) t.memory) (concludeCall c native t r) := by
    have tagged : Yields (fun t => Owns (r.2 :: r.1.operands) t.memory)
        (fun r t => Owns (r.2 :: r.1.operands) t.memory) (do
        if t.memory.builtin? c.f = some .require then tagImport r.1 r.2
        return r : HookM (Call × Value)) := by
      split
      · exact .bind (spread _ (follows_tagImport _ _)) fun _ => .pure fun _ h => h
      · exact .pure fun _ h => h
    unfold concludeCall
    dsimp only
    split
    · exact .bind (spread _ (follows_onMemory (.lift (spreads_propagateCall _ _ _))))
        fun _ => tagged
    · exact tagged
  rw [callPostBody_eq]
  refine .bind .get fun t => ?_
  split
  · exact .pure fun _ h => h
  · dsimp only
    split
    · exact .bind (spread _ (follows_launderSinks _ _)) fun _ =>
        .bind (yields_onMemory (yields_closeCall _ _ _)) (rest t)
    · exact .bind (yields_onMemory (yields_closeCall _ _ _)) (rest t)

end Tracker

namespace Hook

/-- A hook that is given owned values returns owned values. -/
theorem yields_owned (h : Hook) :
    Yields (fun t => Owns h.operands t.memory) (fun vs t => Owns vs t.memory) h.run := by
  -- what a hook hands out are the values that its body returns
  have step {α : Type} {x : HookM α} {f : α → List Value}
      (hx : Yields (fun t => Owns h.operands t.memory) (fun a t => Owns (f a) t.memory) x) :
      Yields (fun t => Owns h.operands t.memory) (fun vs t => Owns vs t.memory)
        (x >>= fun a => pure (f a) : HookM (List Value)) :=
    .bind hx fun _ => .pure fun _ h => h
  have nothing {α : Type} {x : HookM α} :
      Yields (fun t => Owns h.operands t.memory) (fun vs t => Owns vs t.memory)
        (x >>= fun _ => pure [] : HookM (List Value)) := by
    intro t vs t' _ run
    obtain ⟨_, _, _, last⟩ := bind_eq_ok.mp run
    cases last
    exact fun v hv => nomatch hv
  cases h with
  | endExpression | enterFunction f | exitFunction threw | codePre code internal | codePost code =>
    exact nothing
  | literal v =>
    exact step (f := fun w => [w]) (HookM.yields_memoryHook fun _ => yields_literalBody _ v)
  | write target v =>
    exact step (f := fun w => [w]) (HookM.yields_hook (.bind .get fun t =>
      HookM.yields_onMemory ((yields_writeBody _ v _).pre fun m h => h.sub (by simp [Hook.operands]))))
  | conditional v =>
    refine step (f := fun w => [w]) (.bind (HookM.yields_memoryHook (f := fun w => [w])
      fun _ => yields_conditionalBody v) fun raw => .bind ?_ fun _ => .pure fun _ h => h)
    intro t a t' owns run
    cases run
    exact owns
  | getFieldPre base offset =>
    exact step (f := fun r : Value × Value => [r.1, r.2])
      (HookM.yields_memoryHook fun _ => yields_getFieldPreBody base offset)
  | getField base offset v =>
    exact step (f := fun ops : Operands => [ops.base, ops.offset, ops.value])
      (HookM.yields_memoryHook fun _ => yields_getFieldBody _ base offset v)
  | putFieldPre base offset v =>
    exact step (f := fun ops : Operands => [ops.base, ops.offset, ops.value])
      (HookM.yields_memoryHook fun _ => yields_putFieldPreBody _ base offset v)
  | putField base offset v =>
    exact step (f := fun ops : Operands => [ops.base, ops.offset, ops.value])
      (HookM.yields_memoryHook fun _ => yields_putFieldBody _ base offset v)
  | binaryPre op left right =>
    exact step (f := fun r : Value × Value => [r.1, r.2])
      (HookM.yields_memoryHook fun _ => yields_binaryPreBody left right)
  | binary op left right result =>
    exact step (f := fun r : Value × Value × Value => [r.1, r.2.1, r.2.2])
      (HookM.yields_memoryHook fun _ => yields_binaryBody _ op left right result)
  | unaryPre op operand =>
    exact step (f := fun w => [w]) (HookM.yields_memoryHook fun _ => yields_unaryPreBody operand)
  | unary op operand result =>
    exact step (f := fun r : Value × Value => [r.1, r.2])
      (HookM.yields_memoryHook fun _ => yields_unaryBody _ operand result)
  | callPre c =>
    exact step (f := Call.operands) (yields_callPre c)
  | callPost c result =>
    exact step (f := fun r : Call × Value => r.2 :: r.1.operands) (.bind .get fun t =>
      HookM.yields_hook (yields_callPostBody c result _))

end Hook

end ShadowTaint
