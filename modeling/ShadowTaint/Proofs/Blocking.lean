import ShadowTaint.Proofs.Discipline
/-!
# Identities that are left behind

Where identities are reserved when an operation is to begin, and no condition accounts for them, the
first hook of the operation refuses to begin. Every hook ends by forgetting a condition, so an identity
that a hook leaves behind blocks everything that follows.

## Main definitions

- `ShadowState.Blocked`: something is reserved, and no condition accounts for it.
- `Fault.IsMiscount`: the fault by which a hook says so.
- `Tracker.Accepts`: every complete operation is accepted.

## Main statements

- `Runs.fails_of_blocked`: no complete operation gets past its first hook.
- `Tracker.accepts_iff`: complete operations are accepted exactly where nothing is reserved.
-/

namespace ShadowTaint

open Memory Tracker

/-- Something is reserved, and no condition accounts for it. -/
def ShadowState.Blocked (s : ShadowState) : Prop := s.context = .unset ∧ s.frame.reserved ≠ []

/-- The number of reserved identities is not what a hook needs. -/
def Fault.IsMiscount (e : Fault) : Prop :=
  ∃ site expected found, e = .violation (.pending site expected found)

theorem Fault.IsMiscount.not_endsRun {e : Fault} (h : e.IsMiscount) : ¬ e.EndsRun := by
  obtain ⟨site, expected, found, rfl⟩ := h
  rintro (⟨f, impossible⟩ | ofGhost)
  · cases impossible
  · cases ofGhost

namespace CheckedM

/-- A hook that needs fewer identities than are reserved fails. -/
theorem checkPending_error {site : String} {expected : Nat} {m : Memory}
    (h : m.shadow.frame.reserved.length ≠ expected) :
    ∃ e, checkPending site expected m = (.error e, m) ∧ e.IsMiscount := by
  refine ⟨_, ?_, site, expected, m.shadow.frame.reserved.length, rfl⟩
  unfold checkPending
  rw [get_bind_apply]
  unfold ShadowState.checkPending ShadowState.pendingCount
  rw [if_neg h]
  rfl

theorem checkPending_of_blocked {m : Memory} (blocked : m.shadow.Blocked) (site : String) :
    ∃ e, checkPending site 0 m = (.error e, m) ∧ e.IsMiscount :=
  checkPending_error fun empty => blocked.2 (List.length_eq_zero_iff.mp empty)

/-- A hook that expects to be at rest fails elsewhere. -/
theorem expectIdle_error {m : Memory} (busy : ¬ m.shadow.AtRest) (site : String) :
    ∃ e, expectIdle site m = (.error e, m) ∧ e.IsMiscount := by
  unfold expectIdle
  rw [get_bind_apply]
  by_cases conditional : m.shadow.context = .conditional
  · obtain ⟨e, failed, miscount⟩ : ∃ e, checkPending site 1 m = (.error e, m) ∧ e.IsMiscount :=
      checkPending_error fun one => busy (.inr ⟨conditional, one⟩)
    rw [if_pos conditional, bind_apply_error failed]
    exact ⟨e, rfl, miscount⟩
  · have unset : m.shadow.context = .unset := by
      cases context : m.shadow.context with
      | unset => rfl
      | conditional => exact absurd context conditional
    rw [if_neg conditional]
    exact checkPending_error fun empty => busy (.inl ⟨unset, List.length_eq_zero_iff.mp empty⟩)

theorem expectIdle_of_blocked {m : Memory} (blocked : m.shadow.Blocked) (site : String) :
    ∃ e, expectIdle site m = (.error e, m) ∧ e.IsMiscount := by
  refine expectIdle_error ?_ site
  rintro (⟨-, empty⟩ | ⟨conditional, -⟩)
  · exact blocked.2 empty
  · cases blocked.1.symm.trans conditional

/-- A body that begins by expecting that nothing is reserved. -/
theorem fails_of_blocked {α : Type} {m : Memory} (blocked : m.shadow.Blocked) (site : String)
    (rest : Unit → CheckedM α) :
    ∃ e, (expectIdle site >>= rest) m = (.error e, m) ∧ e.IsMiscount := by
  obtain ⟨e, failed, miscount⟩ := expectIdle_of_blocked blocked site
  exact ⟨e, bind_apply_error failed, miscount⟩

end CheckedM

/-- A hook fails where its body does. -/
theorem HookM.fails_of_body {α : Type} (name : String) (operands : Tracker → List (String × String))
    (body : Levels → CheckedM α) {t : Tracker}
    (failed : ∃ e, body t.settings.policies t.memory = (.error e, t.memory) ∧ e.IsMiscount) :
    ∃ e t', memoryHook name operands body t = (.error e, t') ∧ e.IsMiscount := by
  obtain ⟨e, run, miscount⟩ := failed
  obtain ⟨t', hooked, -⟩ := memoryHook_of name operands body run
  exact ⟨e, t', hooked, miscount⟩

theorem Plain.fails_of_blocked {t : Tracker} (blocked : t.memory.shadow.Blocked) (p : Plain) :
    ∃ e t', p.run t = (.error e, t') ∧ e.IsMiscount := by
  cases p with
  | literal v =>
    obtain ⟨e, t', hooked, miscount⟩ := HookM.fails_of_body "literal"
      (fun t => [("value", t.render v)]) (literalBody v) (t := t)
      (CheckedM.fails_of_blocked blocked _ _)
    exact ⟨e, t', by rw [Plain.run, Tracker.literal, bind_apply_error hooked], miscount⟩
  | write target v =>
    obtain ⟨e, failed, miscount⟩ := CheckedM.checkPending_of_blocked blocked "WWrite"
    have run : writeBody v t.scope.isActive t.settings.policies t.memory =
        (.error e, t.memory) := by
      have other : t.memory.shadow.context ≠ .conditional := by
        rw [blocked.1]
        decide
      unfold writeBody
      rw [get_bind_apply, if_neg other, bind_apply_error failed]
    obtain ⟨t', hooked, -⟩ := HookM.hook_of "write"
      (fun t => [("lhs", t.render target), ("value", t.render v)])
      (fun t => writeBody v t.scope.isActive t.settings.policies)
      (fun _ logs => by rw [logs.scope, logs.settings]) run
    exact ⟨e, t', by rw [Plain.run, Tracker.write, bind_apply_error hooked], miscount⟩
  | conditional v =>
    obtain ⟨e, t', hooked, miscount⟩ := HookM.fails_of_body "conditional"
      (fun t => [("value", t.render v)]) (fun _ => conditionalBody v) (t := t)
      (CheckedM.fails_of_blocked blocked _ _)
    exact ⟨e, t', by rw [Plain.run, Tracker.conditional, bind_assoc, bind_apply_error hooked],
      miscount⟩
  | endExpression =>
    exact HookM.fails_of_body "end_expression" (fun _ => [])
      (fun _ => CheckedM.expectIdle "WEndExpr") (CheckedM.expectIdle_of_blocked blocked _)
  | evaluate code internal =>
    obtain ⟨e, run, miscount⟩ : ∃ e, codePreBody code internal t.scope.sink t.settings.maxLength
        t.memory = (.error e, t.memory) ∧ e.IsMiscount := CheckedM.fails_of_blocked blocked _ _
    obtain ⟨t', hooked, -⟩ := HookM.hook_of "instrument_code_pre"
      (fun t => [("code", t.render code), ("is_internal", if internal then "true" else "false")])
      (fun t => codePreBody code internal t.scope.sink t.settings.maxLength)
      (fun _ logs => by rw [logs.scope, logs.settings]) run
    exact ⟨e, t', by rw [Plain.run, codePre, bind_apply_error hooked], miscount⟩

/-- A call is checked before its hook looks at what is reserved, so it may also end in a finding. -/
theorem callPre_fails_of_blocked {t : Tracker} (blocked : t.memory.shadow.Blocked) (c : Call) :
    ∃ e t', callPre c t = (.error e, t') ∧ (e.IsMiscount ∨ ∃ f, e = .finding f) := by
  obtain ⟨t₀, t', logs, run, -⟩ := callPre_run t c
  have blocked₀ : t₀.memory.shadow.Blocked := by rwa [logs.memory]
  rcases checkCall_passes (t.placed c) t₀ with ⟨t₁, passed, marks⟩ | ⟨f, t₁, refused, -⟩
  · have blocked₁ : t₁.memory.shadow.Blocked := by
      unfold ShadowState.Blocked
      rw [marks.memory.context, marks.memory.frame]
      exact blocked₀
    have stops : ∃ e t₂, callPreBody (t.placed c) (t.memory.isNativeCall (t.placed c)) t₀ =
        (.error e, t₂) ∧ e.IsMiscount := by
      rcases called : t₁.ghostOf? (t.placed c) with _ | ghost
      · obtain ⟨e, failed, miscount⟩ : ∃ e, openCall (t.placed c)
            (t.memory.isNativeCall (t.placed c)) t₁.settings.policies t₁.memory =
              (.error e, t₁.memory) ∧ e.IsMiscount := CheckedM.fails_of_blocked blocked₁ _ _
        exact ⟨e, _, by rw [callPreBody_of_real passed called, HookM.onMemory_apply, failed], miscount⟩
      · obtain ⟨e, failed, miscount⟩ := CheckedM.expectIdle_of_blocked blocked₁ "WGhostCall"
        rw [callPreBody_of_called passed called]
        exact ⟨e, _, bind_apply_error (by rw [HookM.onMemory_apply, failed]), miscount⟩
    obtain ⟨e, t₂, body, miscount⟩ := stops
    rw [body] at run
    exact ⟨e, t', run, .inl miscount⟩
  · rw [callPreBody_of_refused refused] at run
    exact ⟨_, t', run, .inr ⟨f, rfl⟩⟩

theorem Paired.before_fails_of_blocked {t : Tracker} (blocked : t.memory.shadow.Blocked)
    (p : Paired) :
    ∃ e t', p.before t = (.error e, t') ∧ (e.IsMiscount ∨ ∃ f, e = .finding f) := by
  -- every hook but the one of a call begins by expecting that nothing is reserved
  have first {α : Type} (name : String) (operands : Tracker → List (String × String))
      (site : String) (rest : Levels → Unit → CheckedM α) (f : α → Paired) :
      ∃ e t', (HookM.memoryHook name operands (fun levels => CheckedM.expectIdle site >>= rest levels)
        >>= fun a => pure (f a) : HookM Paired) t = (.error e, t') ∧
          (e.IsMiscount ∨ ∃ f, e = .finding f) := by
    obtain ⟨e, t', hooked, miscount⟩ := HookM.fails_of_body name operands
      (fun levels => CheckedM.expectIdle site >>= rest levels) (t := t)
      (CheckedM.fails_of_blocked blocked _ _)
    exact ⟨e, t', bind_apply_error hooked, .inl miscount⟩
  cases p with
  | getField base offset => exact first _ _ _ _ _
  | putField base offset v => exact first _ _ _ _ _
  | binary op left right => exact first _ _ _ _ _
  | unary op operand => exact first _ _ _ _ _
  | call c =>
    obtain ⟨e, t', run, fails⟩ := callPre_fails_of_blocked blocked c
    exact ⟨e, t', by rw [before, bind_apply_error run], fails⟩

/-- Where something is left behind, no complete operation gets past its first hook. -/
theorem Runs.fails_of_blocked {t t' : Tracker} {fault : Option Fault}
    (h : Runs .operation t fault t') (blocked : t.memory.shadow.Blocked) :
    ∃ e, fault = some e ∧ (e.IsMiscount ∨ ∃ f, e = .finding f) := by
  have never {p q : Paired} {t₁ : Tracker} (before : p.before t = (.ok q, t₁)) : False := by
    obtain ⟨e, t₂, failed, -⟩ := p.before_fails_of_blocked blocked
    rw [before] at failed
    cases failed
  cases h with
  | plain p run =>
    obtain ⟨e, t₁, failed, -⟩ := p.fails_of_blocked blocked
    rw [run] at failed
    cases failed
  | plainFails p run =>
    obtain ⟨e, t₁, failed, miscount⟩ := p.fails_of_blocked blocked
    rw [run] at failed
    cases failed
    exact ⟨_, rfl, .inl miscount⟩
  | paired result regular before inside undisturbed after => exact (never before).elim
  | @beforeFails _ _ p _ before =>
    obtain ⟨e, t₁, failed, fails⟩ := p.before_fails_of_blocked blocked
    rw [before] at failed
    cases failed
    exact ⟨_, rfl, fails⟩
  | insideFails regular before inside => exact (never before).elim
  | afterFails result regular before inside undisturbed after => exact (never before).elim

/-- Every complete operation is accepted: if a hook of it fails, then with a finding or with a fault of
a ghost function. -/
def Tracker.Accepts (t : Tracker) : Prop :=
  ∀ fault t', Runs .operation t fault t' → ∀ e, fault = some e → e.EndsRun

theorem Tracker.accepts_of_atRest {t : Tracker} (rest : t.memory.shadow.AtRest) : t.Accepts := by
  intro fault t' run e failed
  have outcome := run.outcome rest
  rw [failed] at outcome
  exact outcome

/-- Without a condition, complete operations are accepted exactly where nothing is reserved. -/
theorem Tracker.accepts_iff {t : Tracker} (unset : t.memory.shadow.context = .unset) :
    t.Accepts ↔ t.memory.shadow.frame.reserved = [] := by
  constructor
  · intro accepts
    by_contra held
    obtain ⟨e, t', failed, miscount⟩ := Plain.fails_of_blocked ⟨unset, held⟩ (.literal .undefined)
    exact miscount.not_endsRun (accepts _ t' (.plainFails _ failed) e rfl)
  · exact fun empty => accepts_of_atRest (.inl ⟨unset, empty⟩)

end ShadowTaint
