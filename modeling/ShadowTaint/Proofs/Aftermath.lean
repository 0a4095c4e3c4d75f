import ShadowTaint.Proofs.Blocking
import ShadowTaint.Proofs.Persistence
/-!
# What a finding leaves behind

Four hooks end in findings. The one after a store releases whatever is reserved when it refuses the
store, and the one after code was prepared has nothing reserved by then. The hook before an evaluation
keeps the identity of the code reserved, unless the evaluation is internal, and the one before a call of
a sink has not looked at what is reserved when it refuses the call. What stays reserved blocks every
operation that follows.

## Main definitions

- `Hook.Finds`: the hook may end in a finding.
- `Hook.Releases`: a hook that ends in a finding leaves nothing reserved.

## Main statements

- `Hook.finds_of_finding`: no other hooks end in findings.
- `Hook.usable_iff_releases`: what a finding leaves behind, and whether operations are accepted after it.
-/

namespace ShadowTaint

open Memory Tracker

namespace CheckedM

theorem checkPending_inv {site : String} {expected : Nat} {m m' : Memory}
    (passed : checkPending site expected m = (.ok (), m')) :
    m' = m ∧ m.shadow.frame.reserved.length = expected := by
  by_cases matching : m.shadow.frame.reserved.length = expected
  · rw [checkPending_ok matching] at passed
    cases passed
    exact ⟨rfl, matching⟩
  · obtain ⟨e, failed, -⟩ := @checkPending_error site expected m matching
    rw [failed] at passed
    cases passed

theorem reserved_of_checkPending {site : String} {m m' : Memory}
    (passed : checkPending site 0 m = (.ok (), m')) : m'.shadow.frame.reserved = [] := by
  obtain ⟨rfl, empty⟩ := checkPending_inv passed
  exact List.length_eq_zero_iff.mp empty

theorem reserved_of_expectIdle {site : String} {m m' : Memory}
    (passed : expectIdle site m = (.ok (), m')) : m'.shadow.frame.reserved = [] := by
  unfold expectIdle at passed
  rw [get_bind_apply] at passed
  split at passed
  · obtain ⟨_, m₁, -, rest⟩ := bind_eq_ok.mp passed
    obtain ⟨_, m₂, -, last⟩ := bind_eq_ok.mp rest
    exact reserved_of_checkPending last
  · exact reserved_of_checkPending passed

/-- A hook that expects nothing to be reserved passes at rest only. -/
theorem atRest_of_expectIdle {site : String} {m m' : Memory}
    (passed : expectIdle site m = (.ok (), m')) : m.shadow.AtRest := by
  unfold expectIdle at passed
  rw [get_bind_apply] at passed
  split at passed
  · rename_i conditional
    obtain ⟨⟨⟩, m₁, checked, -⟩ := bind_eq_ok.mp passed
    exact .inr ⟨conditional, (checkPending_inv checked).2⟩
  · rename_i other
    refine .inl ⟨?_, List.length_eq_zero_iff.mp (checkPending_inv passed).2⟩
    cases context : m.shadow.context with
    | unset => rfl
    | conditional => exact absurd context other

end CheckedM

namespace Hook

section Code

/-- The identity of code that is about to be evaluated stays reserved, unless the evaluation is
internal. -/
theorem reserved_of_codeSource {code : Value} {internal : Bool} {m m' : Memory} {source : String}
    (read : codeSource code internal m = (.ok source, m')) :
    m'.shadow.frame.reserved = [] ↔ internal = true := by
  obtain ⟨_, m₁, idle, rest⟩ := bind_eq_ok.mp read
  obtain ⟨id, -, stacked⟩ := MemoryM.stacks_unwrap code m₁
  rw [CheckedM.reserved_of_expectIdle idle] at stacked
  obtain ⟨raw, m₂, unwrapped⟩ : ∃ raw m₂, MemoryM.unwrap code m₁ = (raw, m₂) := ⟨_, _, rfl⟩
  rw [unwrapped] at stacked
  rw [lift_bind_of unwrapped] at rest
  cases internal with
  | true =>
    have dropped := MemoryM.stacks_discard m₂
    obtain ⟨⟨⟩, m₃, discarded⟩ : ∃ a m₃, MemoryM.discard m₂ = (a, m₃) := ⟨_, _, rfl⟩
    rw [discarded] at dropped
    rw [if_pos rfl, lift_bind_of discarded] at rest
    cases rest
    exact iff_of_true (by rw [dropped.reserved, stacked.reserved]; rfl) rfl
  | false =>
    cases rest
    refine iff_of_false ?_ Bool.false_ne_true
    rw [stacked.reserved]
    exact List.cons_ne_nil _ _

theorem reserved_of_codeValue {levels : Levels} {code : String} {m m' : Memory} {w : Value}
    (wrapped : codeValue code levels m = (.ok w, m')) : m'.shadow.frame.reserved = [] := by
  unfold codeValue at wrapped
  rw [lift_bind_apply] at wrapped
  obtain ⟨_, m₁, checked, returned⟩ := bind_eq_ok.mp wrapped
  cases returned
  exact CheckedM.reserved_of_checkPending checked

/-- The check of code leaves the frame alone, whatever it finds. -/
theorem frame_checked {α : Type} (code : Value) (sink : Bool) (maxLength : Nat) (a : α) (m : Memory) :
    ((checkCode code sink maxLength >>= fun _ => pure a : CheckedM α) m).2.shadow.frame =
      m.shadow.frame := by
  rcases checkCode_cases code sink maxLength m with ⟨m', run, marks⟩ | ⟨f, m', run, marks⟩
  · rw [bind_apply_ok run]
    exact marks.frame
  · rw [bind_apply_error run]
    exact marks.frame

end Code

/-- The hook may end in a finding: a store, an evaluation of code or a call is refused. -/
inductive Finds : Hook → Prop where
  | putField (base offset v : Value) : Finds (.putField base offset v)
  | codePre (code : Value) (internal : Bool) : Finds (.codePre code internal)
  | codePost (code : String) : Finds (.codePost code)
  | callPre (c : Call) : Finds (.callPre c)

/-- No other hooks end in findings. -/
theorem finds_of_finding {h : Hook} {t : Tracker} {f : Finding}
    (found : (h.run t).1 = .error (.finding f)) : h.Finds := by
  by_cases other : ∀ c, h ≠ .callPre c
  · rcases h.idles_or_does other t with ⟨d, m, does⟩ | idles
    · obtain ⟨-, ends⟩ := does.run
      have step := ends.finding f found
      cases does with
      | store run => exact .putField _ _ _
      | codePre sink run plain => exact .codePre _ _
      | codePost run => exact .codePost _
      | _ => cases step
    · exact absurd found (idles.silent f)
  · obtain ⟨c, rfl⟩ : ∃ c, h = .callPre c := by simpa using other
    exact .callPre c

/-- A hook that ends in a finding leaves nothing reserved: code is evaluated internally, or a call that
is refused because of a sink is made where nothing was reserved. -/
def Releases (t : Tracker) (f : Finding) : Hook → Prop
  | .codePre _ internal => internal = true
  | .callPre _ => (Fault.finding f).IsSinkReached → t.memory.shadow.frame.reserved = []
  | _ => True

/-- Nothing but identities is left to the next hook, and none are if the hook releases them. -/
structure Leftover (h : Hook) (t : Tracker) (f : Finding) : Prop where
  context : (h.run t).2.memory.shadow.context = .unset
  reserved : (h.run t).2.memory.shadow.frame.reserved = [] ↔ h.Releases t f

variable {t : Tracker} {f : Finding}

/-- A refused store releases everything. -/
theorem leftover_putField {base offset v : Value}
    (found : ((putField base offset v).run t).1 = .error (.finding f)) :
    (putField base offset v).Leftover t f := by
  rcases attempted : putFieldAttempt base offset v t.settings.policies t.memory with ⟨e | ops, m⟩
  · obtain ⟨-, memory⟩ := run_of (h := .putField base offset v)
      (fun t => putFieldBody base offset v t.settings.policies) rfl
      (fun _ logs => by rw [logs.settings]) (putFieldBody_of_error attempted)
    exact ⟨by rw [memory]; rfl, iff_of_true (by rw [memory]; rfl) trivial⟩
  · obtain ⟨returned, -⟩ := run_of (h := .putField base offset v)
      (fun t => putFieldBody base offset v t.settings.policies) rfl
      (fun _ logs => by rw [logs.settings]) (putFieldBody_of_ok attempted)
    rw [returned] at found
    cases found

theorem leftover_codePre {code : Value} {internal : Bool}
    (found : ((codePre code internal).run t).1 = .error (.finding f)) :
    (codePre code internal).Leftover t f := by
  obtain ⟨-, memory⟩ := run_of (t := t) (h := .codePre code internal) (g := fun _ => [])
    (fun t => codePreBody code internal t.scope.sink t.settings.maxLength) rfl
    (fun _ logs => by rw [logs.scope, logs.settings]) rfl
  rcases (codePre code internal).idles_or_does (by simp) t with ⟨d, m, does⟩ | idles
  · cases does with
    | @codePre _ _ source m sink read plain =>
      have body : codePreBody code internal t.scope.sink t.settings.maxLength t.memory =
          (checkCode code true t.settings.maxLength >>= fun _ => pure source : CheckedM String) m := by
        rw [codePreBody_eq, bind_apply_ok read, if_neg (by simp [plain]), sink, if_pos rfl]
      refine ⟨by rw [memory]; rfl, ?_⟩
      rw [memory]
      change (codePreBody code internal t.scope.sink t.settings.maxLength t.memory
        ).2.shadow.frame.reserved = [] ↔ _
      rw [body, frame_checked]
      exact reserved_of_codeSource read
  · exact absurd found (idles.silent f)

theorem leftover_codePost {code : String}
    (found : ((codePost code).run t).1 = .error (.finding f)) : (codePost code).Leftover t f := by
  obtain ⟨-, memory⟩ := run_of (t := t) (h := .codePost code) (g := fun _ => [])
    (fun t => codePostBody code t.scope.sink t.settings.maxLength t.settings.policies) rfl
    (fun _ logs => by rw [logs.scope, logs.settings]) rfl
  rcases (codePost code).idles_or_does (by simp) t with ⟨d, m, does⟩ | idles
  · cases does with
    | @codePost _ w _ wrapped =>
      have body : codePostBody code t.scope.sink t.settings.maxLength t.settings.policies t.memory =
          (checkCode w t.scope.sink t.settings.maxLength >>= fun _ => pure code :
            CheckedM String) m := by
        rw [codePostBody_eq, bind_apply_ok wrapped]
      refine ⟨by rw [memory]; rfl, iff_of_true ?_ trivial⟩
      rw [memory]
      change (codePostBody code t.scope.sink t.settings.maxLength t.settings.policies t.memory
        ).2.shadow.frame.reserved = []
      rw [body, frame_checked]
      exact reserved_of_codeValue wrapped
  · exact absurd found (idles.silent f)

/-- Once the arguments have passed the check, a ghost function has ended in the finding, and before it
ran nothing was reserved. -/
theorem reserved_of_passed {c : Call} {native : Bool} {t₁ t₂ : Tracker}
    (passed : checkCall c t = (.ok (), t₁))
    (body : callPreBody c native t = (.error (.finding f), t₂)) :
    t₂.memory.shadow.frame.reserved = [] := by
  rcases called : t₁.ghostOf? c with _ | ghost
  · rw [callPreBody_of_real passed called] at body
    cases (calm_openCall t₁.settings.policies c native).raises.onMemory _ _ _ body
  · rw [callPreBody_of_called passed called] at body
    rcases bind_eq_error.mp body with failed | ⟨_, t₃, idle, rest⟩
    · cases (CheckedM.calm_expectIdle "WGhostCall").raises.onMemory _ _ _ failed
    · have empty : t₃.memory.shadow.frame.reserved = [] := by
        rw [HookM.onMemory_apply] at idle
        rcases passed : CheckedM.expectIdle "WGhostCall" t₁.memory with ⟨e | ⟨⟩, m⟩ <;>
          rw [passed] at idle <;> cases idle
        exact CheckedM.reserved_of_expectIdle passed
      rcases bind_eq_error.mp rest with failed | ⟨_, t₄, -, returned⟩
      · have marks := (Ghost.modest_run ghost c.args).marks.of_apply failed
        rw [marks.memory.frame, empty]
      · cases returned

/-- A call that is refused because of a sink leaves what was reserved, and a ghost function that ends in
a finding has nothing reserved. -/
theorem leftover_callPre {c : Call} (found : ((callPre c).run t).1 = .error (.finding f)) :
    (callPre c).Leftover t f := by
  obtain ⟨c', native, t₀, t', -, logs, run, ended⟩ := run_callPre c t
  rw [run] at found
  have failed := error_of_map found
  have memory : ((callPre c).run t).2.memory = (callPreBody c' native t₀).2.memory.ended := by
    rw [run]
    exact ended.memory
  suffices reserved : (callPreBody c' native t₀).2.memory.shadow.frame.reserved = [] ↔
      (callPre c).Releases t f by
    exact ⟨by rw [memory]; rfl, by rw [memory]; exact reserved⟩
  rcases body : callPreBody c' native t₀ with ⟨_, t₂⟩
  rw [body] at failed
  subst failed
  rcases checkCall_passes c' t₀ with ⟨t₁, passed, -⟩ | ⟨g, t₁, refused, marks⟩
  · refine iff_of_true ?_ fun reached => absurd reached (callPreBody_of_passed passed native body)
    exact reserved_of_passed passed body
  · rw [callPreBody_of_refused refused] at body
    cases body
    have same : t₂.memory.shadow.frame = t.memory.shadow.frame := by
      rw [marks.memory.frame, logs.memory]
    change t₂.memory.shadow.frame.reserved = [] ↔ _
    rw [same]
    exact ⟨fun releases _ => releases, fun releases => releases (raises_checkCall c' _ _ _ refused)⟩

theorem leftover_of_finding (h : Hook) (found : (h.run t).1 = .error (.finding f)) :
    h.Leftover t f := by
  cases finds_of_finding found with
  | putField base offset v => exact leftover_putField found
  | codePre code internal => exact leftover_codePre found
  | codePost code => exact leftover_codePost found
  | callPre c => exact leftover_callPre found

/-- After a finding no condition is left to the next hook, and complete operations are accepted exactly
if the hook has left nothing reserved: unless it evaluates code that is not internal, and unless it is
the hook before a call of a sink and something was reserved before it. -/
theorem usable_iff_releases (h : Hook) (found : (h.run t).1 = .error (.finding f)) :
    (h.run t).2.memory.shadow.context = .unset ∧
    ((h.run t).2.memory.shadow.frame.reserved = [] ↔ h.Releases t f) ∧
    ((h.run t).2.Accepts ↔ h.Releases t f) := by
  have left := h.leftover_of_finding found
  exact ⟨left.context, left.reserved, (accepts_iff left.context).trans left.reserved⟩

/-- The finding in which a hook ends. -/
def finding? (h : Hook) (t : Tracker) : Option Finding :=
  match (h.run t).1 with
  | .error e => e.finding?
  | .ok _ => none

theorem exists_of_finding? {h : Hook} (isFinding : (h.finding? t).isSome = true) :
    ∃ f, (h.run t).1 = .error (.finding f) := by
  unfold finding? at isFinding
  rcases returned : (h.run t).1 with e | vs <;> rw [returned] at isFinding
  · cases e with
    | finding f => exact ⟨f, rfl⟩
    | _ => cases isFinding
  · cases isFinding

end Hook

namespace Session

/-- When a tainted object is evaluated internally, the refusal leaves nothing reserved. -/
theorem usable_iff_releases_internal : ∃ f,
    ((Hook.codePre (.object 0) true).run (run (start {} ⟨#[]⟩) taintedObject).tracker).1 =
      .error (.finding f) ∧
    ((Hook.codePre (.object 0) true).run (run (start {} ⟨#[]⟩) taintedObject).tracker).2.Accepts := by
  obtain ⟨f, found⟩ := Hook.exists_of_finding? (h := .codePre (.object 0) true)
    (t := (run (start {} ⟨#[]⟩) taintedObject).tracker) (by decide +kernel)
  exact ⟨f, found, (Hook.usable_iff_releases _ found).2.2.mpr rfl⟩

/-- When it is evaluated directly, the refusal leaves an identity reserved, and no operation is accepted
after it. -/
theorem evaluation_blocks :
    (run (start {} ⟨#[]⟩) taintedObject).tracker.memory.shadow.AtRest ∧ ∃ f,
    ((Hook.codePre (.object 0) false).run (run (start {} ⟨#[]⟩) taintedObject).tracker).1 =
      .error (.finding f) ∧
    ((Hook.codePre (.object 0) false).run (run (start {} ⟨#[]⟩) taintedObject).tracker
      ).2.memory.shadow.frame.reserved.length = 1 ∧
    ¬ ((Hook.codePre (.object 0) false).run (run (start {} ⟨#[]⟩) taintedObject).tracker).2.Accepts := by
  obtain ⟨f, found⟩ := Hook.exists_of_finding? (h := .codePre (.object 0) false)
    (t := (run (start {} ⟨#[]⟩) taintedObject).tracker) (by decide +kernel)
  have left := Hook.leftover_of_finding _ found
  refine ⟨.inl (by decide +kernel), f, found, by decide +kernel, fun accepts => ?_⟩
  exact Bool.false_ne_true (left.reserved.mp ((accepts_iff left.context).mp accepts))

end Session

end ShadowTaint
