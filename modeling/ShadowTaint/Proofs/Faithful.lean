import ShadowTaint.Proofs.Marking
/-!
# Hosts that pass on what they get

A host that passes on to a hook after an operation what the hook before it has returned, and whose external
calls leave alone what they are called on, never mixes up strings and other literals under one identity.
Then maps are recorded for strings only, and the check of the ghost functions and that of the sinks come to
the same. Three things are left out: texts that are cut into words of which one is no string, evaluated
code with a shadow that is no string, and exceptions that unwind a function, after which the frame of an
abandoned operation may come back.

## Main definitions

- `Faithful`: a part of a run with such a host. Hooks may fail, and the run goes on.
- `Visits`: the states that such a host passes through.

## Main statements

- `Faithful.brings`, `Faithful.adopts`, `Faithful.inherits`: what a part of a run leaves of the frames, of
  the marks of identities, and of what maps are recorded for.
- `Visits.checks_agree`: the two checks agree in every state.
- `Tracker.catchInGetter_disagrees`: a run with an exception, after which they do not.
-/

namespace ShadowTaint

open Memory Tracker

section Frames

variable {m m' : Memory}

instance : IsPreorder Memory InPlace where
  refl _ := ⟨rfl, fun _ => rfl⟩
  trans _ _ _ first second := ⟨second.callSite.trans first.callSite,
    fun site => (second.frames site).trans (first.frames site)⟩

theorem Memory.Stacks.inPlace {ids : List Identity} (h : m.Stacks ids m') : m.InPlace m' :=
  ⟨by rw [h.frame]; rfl, ShadowState.framesAt_of_saved h.saved⟩

theorem Memory.Resumes.inPlace (h : m.Resumes m') : m.InPlace m' := ⟨h.callSite, h.frames⟩

theorem Memory.admitsStacks_inPlace : AdmitsStacks InPlace where
  stacked _ _ _ := Stacks.inPlace
  context _ _ := ⟨rfl, fun _ => rfl⟩

theorem Tracker.inPlace_putFieldBody (levels : Levels) (base offset v : Value) :
    Within InPlace (putFieldBody base offset v levels) := by
  intro m
  rcases putFieldAttempt_cases levels base offset v m with
    ⟨ops, ids, m', run, stacked⟩ | ⟨e, ids, m₁, m₂, run, stacked, same, used⟩
  · rw [putFieldBody_of_ok run]
    exact stacked.inPlace
  · rw [putFieldBody_of_error run]
    have refused := stacked.shadow_refused same used
    exact ⟨by rw [refused]; rfl, ShadowState.framesAt_of_saved (by rw [refused])⟩

theorem Hook.inPlace (h : Hook) (operation : h.Stacks ∨ h.IsStore) :
    Within (Follows InPlace) h.run := by
  rcases operation with other | store
  · exact within_of_stacks admitsStacks_inPlace h other
  · cases h with
    | putField base offset v =>
      exact .bind_except (HookM.follows_memoryHook (fun m => admitsStacks_inPlace.context m .unset) _ _
        fun _ => inPlace_putFieldBody _ _ _ _) fun _ => .pure_except _
    | _ => exact store.elim

/-- A call that is refused has not saved a frame. -/
theorem Tracker.inPlace_callPreBody {t t' : Tracker} {c : Call} {native : Bool} {e : Fault}
    (refused : callPreBody c native t = (.error e, t')) : t.memory.InPlace t'.memory := by
  rcases checkCall_passes c t with ⟨t₁, passed, marks⟩ | ⟨f, t₁, failed, marks⟩
  · refine trans_of InPlace marks.memory.spreads.stacked.inPlace ?_
    rcases called : t₁.ghostOf? c with _ | ghost
    · -- at rest nothing fails, and elsewhere the hook stops at once
      rw [callPreBody_of_real passed called, HookM.onMemory_apply] at refused
      by_cases rest : t₁.memory.shadow.AtRest
      · obtain ⟨q, ids, m', run, -⟩ := openCall_ok rest c native t₁.settings.policies
        rw [run] at refused
        cases refused
      · obtain ⟨e', failed, -⟩ := CheckedM.expectIdle_error rest "WInvokeFunPre"
        have run : openCall c native t₁.settings.policies t₁.memory = (.error e', t₁.memory) :=
          bind_apply_error failed
        rw [run] at refused
        cases refused
        exact refl_of InPlace t₁.memory
    · have ran : Within (Follows InPlace) (ghost.run c.args) :=
        (Ghost.modest_run ghost c.args).marks.mono fun _ _ h => h.mono fun _ _ marks =>
          marks.spreads.stacked.inPlace
      have body := within_enterGhost (c := c)
        (HookM.follows_onMemory (admitsStacks_inPlace.expectIdle _)) ran
      rw [callPreBody_of_called passed called] at refused
      exact (body.of_apply refused).memory
  · rw [callPreBody_of_refused failed] at refused
    cases refused
    exact marks.memory.spreads.stacked.inPlace

theorem Tracker.inPlace_callPre {t t' : Tracker} {c : Call} {e : Fault}
    (refused : callPre c t = (.error e, t')) : t.memory.InPlace t'.memory := by
  obtain ⟨t₀, t₁, logs, run, ended⟩ := callPre_run t c
  obtain ⟨failed, rfl⟩ := Prod.mk.inj (refused.symm.trans run)
  have body := inPlace_callPreBody (Prod.ext failed.symm rfl)
  rw [logs.memory] at body
  rw [ended.memory]
  exact trans_of InPlace body (admitsStacks_inPlace.context _ .unset)

end Frames

section Hosts

/-- An operation with one hook that needs nothing from a hook before it. -/
def Hook.Single (t : Tracker) : Hook → Prop
  | literal _ | conditional _ | endExpression => True
  | write _ _ => t.memory.shadow.context ≠ .conditional
  | _ => False

namespace Paired

/-- The hook before an operation. -/
def preHook : Paired → Hook
  | getField base offset => .getFieldPre base offset
  | putField base offset v => .putFieldPre base offset v
  | binary op left right => .binaryPre op left right
  | unary op operand => .unaryPre op operand
  | call c => .callPre c

/-- The hook after an operation with the result that the host passes. -/
def postHook (result : Value) : Paired → Hook
  | getField base offset => .getField base offset result
  | putField base offset v => .putField base offset v
  | binary op left right => .binary op left right result
  | unary op operand => .unary op operand result
  | call c => .callPost c result

theorem before_snd (p : Paired) (t : Tracker) : (p.before t).2 = (p.preHook.run t).2 := by
  cases p <;> exact (snd_bind_of_pure (fun _ _ => rfl) t).trans (snd_bind_of_pure (fun _ _ => rfl) t).symm

theorem after_snd (q : Paired) (result : Value) (t : Tracker) :
    (q.after result t).2 = ((q.postHook result).run t).2 := by
  cases q <;> exact (snd_bind_of_pure (fun _ _ => rfl) t).trans (snd_bind_of_pure (fun _ _ => rfl) t).symm

end Paired

/-- The heap as the host has left it. -/
def Tracker.withHeap (t : Tracker) (heap : Heap) : Tracker :=
  { t with memory := { t.memory with heap } }

/-- A part of a run in which the host passes on what it gets: to every hook after an operation, and to the
write after a condition, what the hook before it has returned, and in which external calls leave alone
what they are called on. Hooks may fail, and the run goes on. Functions are entered where a frame is
saved for them or the current one is of a call, and no exception unwinds one. -/
inductive Faithful : Phase → Tracker → Tracker → Prop where
  | single {t : Tracker} (h : Hook) (single : h.Single t) : Faithful .operation t (h.run t).2
  /-- A value is chosen by a condition and written. -/
  | chosen {t t₁ : Tracker} {r : Value} (v target : Value) (condition : conditional v t = (.ok r, t₁))
      (heap : Heap) (evolves : t₁.memory.heap.Evolves heap) :
      Faithful .operation t ((Hook.write target r).run (t₁.withHeap heap)).2
  /-- Code is prepared, and what is evaluated may be instrumented first. -/
  | prepared {t t₁ : Tracker} {source : String} (code : Value) (internal : Bool) (text : String)
      (texts : OfText code t.memory) (before : codePre code internal t = (.ok source, t₁))
      (heap : Heap) (evolves : t₁.memory.heap.Evolves heap) :
      Faithful .operation t ((Hook.codePost text).run (t₁.withHeap heap)).2
  | unprepared {t t₁ : Tracker} {e : Fault} (code : Value) (internal : Bool)
      (texts : OfText code t.memory) (before : codePre code internal t = (.error e, t₁)) :
      Faithful .operation t t₁
  | refused {t t₁ : Tracker} {p : Paired} {e : Fault} (before : p.before t = (.error e, t₁)) :
      Faithful .operation t t₁
  /-- The operation itself fails, and there is no hook after it. -/
  | abandoned {t t₁ t₂ : Tracker} {p q : Paired} (operation : ∀ c, p ≠ .call c)
      (before : p.before t = (.ok q, t₁)) (inside : Faithful (.inside true) t₁ t₂) :
      Faithful .operation t t₂
  | paired {t t₁ t₂ : Tracker} {p q : Paired} (result : Value) (regular : p.Regular)
      (before : p.before t = (.ok q, t₁)) (inside : Faithful (.inside (p.entersBodies t)) t₁ t₂)
      (undisturbed : Paired.Undisturbed t t₂ p q) (intact : Paired.Intact t t₁ t₂ p q)
      (cuts : ¬ (q.postHook result).Miscuts t₂) : Faithful .operation t (q.after result t₂).2
  /-- Functions are entered and left between two operations. -/
  | called {t t₁ : Tracker} (ready : Phase.Ready t.memory (.inside true))
      (inside : Faithful (.inside true) t t₁) : Faithful .operation t t₁
  | done (t : Tracker) : Faithful .operations t t
  | next {t t₁ t₂ : Tracker} (first : Faithful .operation t t₁) (rest : Faithful .operations t₁ t₂) :
      Faithful .operations t t₂
  | between {t t₂ : Tracker} (heap : Heap) (evolves : t.memory.heap.Evolves heap)
      (rest : Faithful .operations (t.withHeap heap) t₂) : Faithful .operations t t₂
  | nothing {bodies : Bool} (t : Tracker) : Faithful (.inside bodies) t t
  | host {t t₂ : Tracker} {bodies : Bool} (heap : Heap) (evolves : t.memory.heap.Evolves heap)
      (rest : Faithful (.inside bodies) (t.withHeap heap) t₂) : Faithful (.inside bodies) t t₂
  | body {t t₁ t₂ t₃ : Tracker} (f : Value) (enter : enterFunction f t = (.ok (), t₁))
      (operations : Faithful .operations t₁ t₂)
      (rest : Faithful (.inside true) (exitFunction false t₂).2 t₃) : Faithful (.inside true) t t₃

/-- The states that such a host passes through in a part of a run. -/
inductive Visits : Phase → Tracker → Tracker → Prop where
  | start {phase : Phase} (t : Tracker) : Visits phase t t
  | complete {t t' : Tracker} (operation : Faithful .operation t t') : Visits .operation t t'
  | preparing {t : Tracker} (code : Value) (internal : Bool) (texts : OfText code t.memory) :
      Visits .operation t (codePre code internal t).2
  | begun {t : Tracker} (p : Paired) : Visits .operation t (p.before t).2
  | inside {t t₁ t₂ : Tracker} {p q : Paired} (regular : p.Regular)
      (before : p.before t = (.ok q, t₁)) (inside : Visits (.inside (p.entersBodies t)) t₁ t₂) :
      Visits .operation t t₂
  | called {t t₁ : Tracker} (ready : Phase.Ready t.memory (.inside true))
      (inside : Visits (.inside true) t t₁) : Visits .operation t t₁
  | later {t t₁ t₂ : Tracker} (first : Faithful .operations t t₁) (rest : Visits .operation t₁ t₂) :
      Visits .operations t t₂
  | waiting {t t₁ : Tracker} {bodies : Bool} (first : Faithful (.inside bodies) t t₁) :
      Visits (.inside bodies) t t₁
  | entered {t t₁ t₂ t₃ : Tracker} (f : Value) (first : Faithful (.inside true) t t₁)
      (enter : enterFunction f t₁ = (.ok (), t₂)) (operations : Visits .operations t₂ t₃) :
      Visits (.inside true) t t₃

end Hosts

section Following

/-- A part of a run grows the memory. -/
theorem Faithful.follows {phase : Phase} {t t' : Tracker} (h : Faithful phase t t') :
    Follows Grows t t' := by
  have host {t : Tracker} {heap : Heap} (evolves : t.memory.heap.Evolves heap) :
      Follows Grows t (t.withHeap heap) := follows_host evolves
  induction h with
  | single h _ => exact h.follows _
  | chosen v target condition heap evolves =>
    have tested : Within (Follows Grows) (conditional v) :=
      (Hook.conditional v).follows_of_run rfl fun _ _ => rfl
    exact trans_of (Follows Grows) (trans_of (Follows Grows) (tested.of_apply condition) (host evolves))
      ((Hook.write target _).follows _)
  | prepared code internal text _ before heap evolves =>
    have prepares : Within (Follows Grows) (codePre code internal) :=
      (Hook.codePre code internal).follows_of_run rfl fun _ _ => rfl
    exact trans_of (Follows Grows) (trans_of (Follows Grows) (prepares.of_apply before) (host evolves))
      ((Hook.codePost text).follows _)
  | unprepared code internal _ before =>
    have prepares : Within (Follows Grows) (codePre code internal) :=
      (Hook.codePre code internal).follows_of_run rfl fun _ _ => rfl
    exact prepares.of_apply before
  | @refused t t₁ p e before => exact p.follows_before.of_apply before
  | @abandoned t t₁ t₂ p q _ before _ inside =>
    exact trans_of (Follows Grows) (p.follows_before.of_apply before) inside
  | @paired t t₁ t₂ p q result _ before _ _ _ _ inside =>
    exact trans_of (Follows Grows) (trans_of (Follows Grows) (p.follows_before.of_apply before) inside)
      (q.follows_after result t₂)
  | called _ _ inside => exact inside
  | done t | nothing t => exact refl_of (Follows Grows) t
  | next _ _ first rest => exact trans_of (Follows Grows) first rest
  | between heap evolves _ rest | host heap evolves _ rest =>
    exact trans_of (Follows Grows) (host evolves) rest
  | @body t t₁ t₂ t₃ f enter _ _ operations rest =>
    exact trans_of (Follows Grows) (trans_of (Follows Grows) ((follows_enterFunction f).of_apply enter)
      operations) (trans_of (Follows Grows) (follows_exitFunction false t₂) rest)

end Following

/-- What a part of a run needs where functions may be entered. -/
def Phase.Opened (m : Memory) : Phase → Prop
  | operation | operations => True
  | inside bodies => (Phase.inside bodies).Ready m

/-- What a part of a run does to the frames, whether or not hooks fail in it. -/
def Phase.Brings (m m' : Memory) : Phase → Prop
  | operation | operations => m.InPlace m'
  | inside bodies => (Phase.inside bodies).Complete m m'

section Staying

variable {t t₁ t₂ : Tracker} {p q : Paired}

/-- The hook before an operation has succeeded at rest only. -/
theorem Paired.atRest_of_before (before : p.before t = (.ok q, t₁)) : t.memory.shadow.AtRest := by
  -- every hook but the one of a call begins by expecting that nothing is reserved
  have first {α : Type} {name : String} {operands : Tracker → List (String × String)} {site : String}
      {rest : Levels → Unit → CheckedM α} {f : α → Paired}
      (run : (HookM.memoryHook name operands (fun levels => CheckedM.expectIdle site >>= rest levels)
        >>= fun a => pure (f a) : HookM Paired) t = (.ok q, t₁)) : t.memory.shadow.AtRest := by
    by_contra busy
    obtain ⟨e, stopped, -⟩ := CheckedM.expectIdle_error busy site
    obtain ⟨t', failed, -⟩ := HookM.memoryHook_of name operands
      (fun levels => CheckedM.expectIdle site >>= rest levels) (t := t) (bind_apply_error stopped)
    rw [bind_apply_error failed] at run
    cases run
  cases p with
  | getField base offset => exact first before
  | putField base offset v => exact first before
  | binary op left right => exact first before
  | unary op operand => exact first before
  | call c =>
    obtain ⟨c', t', passed, -⟩ := bind_eq_ok.mp before
    exact atRest_of_callPre passed

/-- The hook after a call brings the frame of the caller back. -/
theorem Paired.inPlace_call {c : Call} (before : (Paired.call c).before t = (.ok q, t₁))
    (follows : Follows Grows t t₂)
    (inside : Phase.Complete t₁.memory t₂.memory (.inside ((Paired.call c).entersBodies t)))
    (undisturbed : Paired.Undisturbed t t₂ (.call c) q) (result : Value) :
    t.memory.InPlace (q.after result t₂).2.memory := by
  cases Paired.hands_of_before (atRest_of_before before) before with
  | @call c q ids real hands opens context =>
    rw [Paired.entersBodies, real] at inside
    obtain ⟨c', w, t₃, run, -, same, -⟩ :=
      callPost_of_none hands opens follows inside (undisturbed real) result
    rw [Paired.after, bind_apply_ok run]
    exact same.inPlace
  | @ghost c ghost called leaves =>
    rw [Paired.entersBodies, called] at inside
    obtain ⟨t₃, run, -, same, -⟩ := callPost_of_ghost called leaves follows inside result
    rw [Paired.after, bind_apply_ok run]
    exact same.inPlace

/-- The hooks of an operation other than a call work on the current frame only. -/
theorem Paired.inPlace_before (operation : ∀ c, p ≠ .call c) :
    t.memory.InPlace (p.before t).2.memory := by
  rw [p.before_snd]
  refine (Hook.inPlace _ (.inl ?_) t).memory
  cases p with
  | call c => exact absurd rfl (operation c)
  | _ => trivial

theorem Paired.inPlace_after (operation : ∀ c, q ≠ .call c) (result : Value) :
    t.memory.InPlace (q.after result t).2.memory := by
  rw [q.after_snd]
  refine (Hook.inPlace _ ?_ t).memory
  cases q with
  | call c => exact absurd rfl (operation c)
  | putField base offset v => exact .inr trivial
  | _ => exact .inl trivial

/-- Functions may be entered inside any operation that is no call. -/
theorem Paired.ready_of_before (operation : ∀ c, p ≠ .call c) (before : p.before t = (.ok q, t₁)) :
    Phase.Ready t₁.memory (.inside true) := by
  have hands := Paired.hands_of_before (atRest_of_before before) before
  cases p with
  | call c => exact absurd rfl (operation c)
  | _ => exact hands.ready trivial

/-- The hook after an operation works in the frame of before. -/
theorem Paired.inPlace_paired (before : p.before t = (.ok q, t₁)) (opened : Follows Grows t₁ t₂)
    (inside : Phase.Complete t₁.memory t₂.memory (.inside (p.entersBodies t)))
    (undisturbed : Paired.Undisturbed t t₂ p q) (result : Value) :
    t.memory.InPlace (q.after result t₂).2.memory := by
  have follows := trans_of (Follows Grows) (p.follows_before.of_apply before) opened
  by_cases call : ∃ c, p = .call c
  · obtain ⟨c, rfl⟩ := call
    exact inPlace_call before follows inside undisturbed result
  · rw [not_exists] at call
    have enters : p.entersBodies t = true ∧ ∀ c, q ≠ .call c := by
      cases Paired.hands_of_before (atRest_of_before before) before with
      | call => exact absurd rfl (call _)
      | ghost => exact absurd rfl (call _)
      | _ =>
        constructor
        · rfl
        · intro c impossible
          cases impossible
    rw [enters.1] at inside
    have began : t.memory.InPlace t₁.memory := by
      have moved := inPlace_before (t := t) call
      rwa [before] at moved
    exact trans_of InPlace (trans_of InPlace began (Resumes.inPlace inside))
      (inPlace_after enters.2 result)

end Staying

/-- What happens in a part of a run leaves the frames in place, whether or not hooks fail in it. -/
theorem Faithful.brings {phase : Phase} {t t' : Tracker} (h : Faithful phase t t')
    (opened : phase.Opened t.memory) : phase.Brings t.memory t'.memory := by
  have host {t : Tracker} (heap : Heap) : t.memory.InPlace (t.withHeap heap).memory := ⟨rfl, fun _ => rfl⟩
  have prepares (code : Value) (internal : Bool) : Within (Follows InPlace) (codePre code internal) :=
    (Hook.codePre code internal).within_of_run (Hook.inPlace _ (.inl trivial)) rfl fun _ _ => rfl
  induction h with
  | @single t h single => exact (h.inPlace (.inl (by cases h <;> trivial)) t).memory
  | chosen v target condition heap evolves =>
    have tested : Within (Follows InPlace) (conditional v) :=
      (Hook.conditional v).within_of_run (Hook.inPlace _ (.inl trivial)) rfl fun _ _ => rfl
    exact trans_of InPlace (trans_of InPlace (tested.of_apply condition).memory (host heap))
      (Hook.inPlace (.write target _) (.inl trivial) _).memory
  | prepared code internal text _ before heap evolves =>
    exact trans_of InPlace (trans_of InPlace ((prepares code internal).of_apply before).memory (host heap))
      (Hook.inPlace (.codePost text) (.inl trivial) _).memory
  | unprepared code internal _ before => exact ((prepares code internal).of_apply before).memory
  | @refused t t₁ p e before =>
    by_cases call : ∃ c, p = .call c
    · obtain ⟨c, rfl⟩ := call
      rcases bind_eq_error.mp before with failed | ⟨q, t', -, impossible⟩
      · exact inPlace_callPre failed
      · cases impossible
    · have moved := Paired.inPlace_before (t := t) (not_exists.mp call)
      rwa [before] at moved
  | @abandoned t t₁ t₂ p q operation before _ inside =>
    have moved := Paired.inPlace_before (t := t) operation
    rw [before] at moved
    have ready := Paired.ready_of_before operation before
    exact trans_of InPlace moved (Resumes.inPlace (inside ready))
  | @paired t t₁ t₂ p q result regular before inner undisturbed _ _ inside =>
    have hands := Paired.hands_of_before (Paired.atRest_of_before before) before
    exact Paired.inPlace_paired before inner.follows (inside (hands.ready regular)) undisturbed result
  | called ready _ inside => exact Resumes.inPlace (inside ready)
  | done t => exact refl_of InPlace t.memory
  | next _ _ first rest => exact trans_of InPlace (first trivial) (rest trivial)
  | between heap evolves _ rest => exact trans_of InPlace (host heap) (rest trivial)
  | @nothing bodies t =>
    cases bodies with
    | false => rfl
    | true => exact ⟨opened.1, rfl, fun _ => rfl, fun _ => rfl⟩
  | @host t t₂ bodies heap evolves _ rest =>
    have later : Phase.Complete _ _ _ := rest (by cases bodies <;> exact opened)
    cases bodies with
    | false => exact later
    | true => exact ⟨later.context, later.callSite, later.frames, later.frame⟩
  | @body t t₁ t₂ t₃ f enter _ _ operations rest =>
    obtain ⟨-, resumes⟩ := resumes_of_exitFunction opened enter (operations trivial) rfl
    exact resumes.trans (rest (resumes.ready opened))

section Marking

variable {t : Tracker}

open HookM

/-- The hook of an operation that has only one leaves identities that can be marked. -/
theorem Hook.adopts_of_single (h : Hook) (single : h.Single t) : t.memory.Adopts (h.run t).2.memory := by
  intro kinds sorted
  cases h with
  | literal v =>
    exact ((sorts_literal v sorted).map (R := fun _ => Freely) fun _ _ _ _ => trivial).marked
  | write target v =>
    exact ((sorts_write target v sorted fun context => absurd context single).map (R := fun _ => Freely)
      fun _ _ _ _ => trivial).marked
  | conditional v =>
    exact ((sorts_conditional v sorted).map (R := fun _ => Freely) fun _ _ _ _ => trivial).marked
  | endExpression =>
    exact ((sorts_endExpression sorted).map (R := fun _ => Freely) fun _ _ _ _ => trivial).marked
  | _ => exact single.elim

/-- The hook before an operation leaves identities that can be marked. -/
theorem Paired.adopts_before (p : Paired) : t.memory.Adopts (p.before t).2.memory :=
  fun _ sorted => (p.sorts_before sorted).marked

theorem Tracker.adopts_codePre {code : Value} (internal : Bool) (texts : OfText code t.memory) :
    t.memory.Adopts (codePre code internal t).2.memory :=
  fun _ sorted => (sorts_codePre code internal sorted texts).marked

end Marking

/-- A part of a run leaves identities that can be marked, however they were marked before. -/
theorem Faithful.adopts {phase : Phase} {t t' : Tracker} (h : Faithful phase t t')
    (opened : phase.Opened t.memory) : t.memory.Adopts t'.memory := by
  have host {t : Tracker} (heap : Heap) : t.memory.Adopts (t.withHeap heap).memory := .of_same rfl rfl
  induction h with
  | single h single => exact h.adopts_of_single single
  | @chosen t t₁ r v target condition heap evolves =>
    intro kinds sorted
    obtain ⟨kinds₁, more₁, sorted₁, offers⟩ := sorts_conditional v sorted
    rw [condition] at sorted₁ offers
    have written := sorts_write target r (t := t₁.withHeap heap) (sorted₁.congr rfl rfl)
      fun _ => offers r rfl
    obtain ⟨kinds₂, more₂, sorted₂⟩ := (written.map (R := fun _ => Freely) fun _ _ _ _ => trivial).marked
    exact ⟨kinds₂, more₁.trans more₂, sorted₂⟩
  | @prepared t t₁ source code internal text texts before heap evolves =>
    intro kinds sorted
    obtain ⟨kinds₁, more₁, sorted₁, offers⟩ := sorts_codePre code internal sorted texts
    rw [before] at sorted₁ offers
    have wrapped := sorts_codePost text (t := t₁.withHeap heap) (sorted₁.congr rfl rfl)
      (offers source rfl text)
    obtain ⟨kinds₂, more₂, sorted₂⟩ := (wrapped.map (R := fun _ => Freely) fun _ _ _ _ => trivial).marked
    exact ⟨kinds₂, more₁.trans more₂, sorted₂⟩
  | @unprepared t t₁ e code internal texts before =>
    have adopts := adopts_codePre internal texts
    rwa [before] at adopts
  | @refused t t₁ p e before =>
    have adopts := p.adopts_before (t := t)
    rwa [before] at adopts
  | @abandoned t t₁ t₂ p q operation before _ inside =>
    have adopts := p.adopts_before (t := t)
    rw [before] at adopts
    exact trans_of Adopts adopts (inside (Paired.ready_of_before operation before))
  | @paired t t₁ t₂ p q result regular before inner undisturbed intact cuts inside =>
    intro kinds sorted
    have hands := Paired.hands_of_before (Paired.atRest_of_before before) before
    have opened := hands.ready regular
    obtain ⟨kinds₁, more₁, sorted₁, entrusted⟩ := p.sorts_before sorted
    rw [before] at sorted₁ entrusted
    obtain ⟨kinds₂, more₂, sorted₂⟩ := inside opened kinds₁ sorted₁
    have awaited : q.Awaited t₂ kinds₂ := (entrusted q rfl).awaited hands (p.follows_before.of_apply before)
      inner.follows (inner.brings opened) undisturbed intact more₂
    obtain ⟨kinds₃, more₃, sorted₃⟩ := (q.sorts_after result sorted₂ awaited).marked
    exact ⟨kinds₃, (more₁.trans more₂).trans more₃, sorted₃⟩
  | called ready _ inside => exact inside ready
  | done t | nothing t => exact refl_of Adopts t.memory
  | next _ _ first rest => exact trans_of Adopts (first trivial) (rest trivial)
  | between heap evolves _ rest => exact trans_of Adopts (host heap) (rest trivial)
  | @host t t₂ bodies heap evolves _ rest =>
    exact trans_of Adopts (host heap) (rest (by cases bodies <;> exact opened))
  | @body t t₁ t₂ t₃ f enter inner _ operations rest =>
    obtain ⟨-, resumes⟩ := resumes_of_exitFunction opened enter (inner.brings trivial) rfl
    have entered := ((adopts_enterFunction f).of_apply enter).memory
    have left := (adopts_exitFunction false t₂).memory
    exact trans_of Adopts (trans_of Adopts entered (operations trivial))
      (trans_of Adopts left (rest (resumes.ready opened)))

section Spelling

/-- Only the hook after a call cuts texts. -/
theorem Hook.not_miscuts {h : Hook} {t : Tracker} (other : ∀ c result, h ≠ .callPost c result) :
    ¬ h.Miscuts t := by
  rintro ⟨d, m, does, miscuts⟩
  cases does with
  | native => exact other _ _ rfl
  | _ => cases miscuts

/-- Maps are recorded for strings only. -/
def Memory.OnStrings (m : Memory) : Prop := m.Spelled m.shadow.wraps

theorem Hook.inherits_onStrings {h : Hook} (other : ∀ c result, h ≠ .callPost c result) :
    Within (Follows (Inherits OnStrings)) h.run := fun t =>
  ⟨(h.follows t).settings, (h.follows t).ghosts, fun before => h.spelled before (not_miscuts other)⟩

theorem Paired.inherits_before (p : Paired) (t : Tracker) :
    Inherits OnStrings t.memory (p.before t).2.memory := by
  have other : ∀ c result, p.preHook ≠ .callPost c result := by
    cases p <;> exact fun _ _ impossible => nomatch impossible
  rw [p.before_snd]
  exact (Hook.inherits_onStrings other t).memory

theorem Tracker.inherits_codePre (code : Value) (internal : Bool) :
    Within (Follows (Inherits OnStrings)) (codePre code internal) :=
  (Hook.codePre code internal).within_of_run
    (Hook.inherits_onStrings fun _ _ impossible => nomatch impossible) rfl fun _ _ => rfl

theorem Tracker.inherits_enterFunction (f : Value) :
    Within (Follows (Inherits OnStrings)) (enterFunction f) :=
  (Hook.enterFunction f).within_of_run
    (Hook.inherits_onStrings fun _ _ impossible => nomatch impossible) rfl fun _ _ => rfl

theorem Tracker.inherits_exitFunction (threw : Bool) :
    Within (Follows (Inherits OnStrings)) (exitFunction threw) :=
  (Hook.exitFunction threw).within_of_run
    (Hook.inherits_onStrings fun _ _ impossible => nomatch impossible) rfl fun _ _ => rfl

/-- The hook after an operation records maps for strings only, unless it cuts a text wrongly. -/
theorem Paired.inherits_after {t : Tracker} {q : Paired} {result : Value}
    (cuts : ¬ (q.postHook result).Miscuts t) : Inherits OnStrings t.memory (q.after result t).2.memory := by
  rw [q.after_snd]
  exact fun before => Hook.spelled _ before cuts

end Spelling

/-- In a part of a run maps are recorded for strings only. -/
theorem Faithful.inherits {phase : Phase} {t t' : Tracker} (h : Faithful phase t t') :
    Inherits OnStrings t.memory t'.memory := by
  have host {t : Tracker} (heap : Heap) : Inherits OnStrings t.memory (t.withHeap heap).memory :=
    fun before => Spelled.of_entries before rfl
  have hook (h : Hook) (other : ∀ c result, h ≠ .callPost c result) (t : Tracker) :
      Inherits OnStrings t.memory (h.run t).2.memory := (Hook.inherits_onStrings other t).memory
  induction h with
  | @single t h single =>
    refine hook h (fun c result same => ?_) t
    subst same
    exact single
  | @chosen _ _ r v target condition heap evolves =>
    have tested : Within (Follows (Inherits OnStrings)) (conditional v) :=
      (Hook.conditional v).within_of_run
        (Hook.inherits_onStrings fun _ _ impossible => nomatch impossible) rfl fun _ _ => rfl
    exact trans_of (Inherits OnStrings) (trans_of (Inherits OnStrings)
      (tested.of_apply condition).memory (host heap))
      (hook (.write target r) (fun _ _ impossible => nomatch impossible) _)
  | prepared code internal text texts before heap evolves =>
    exact trans_of (Inherits OnStrings) (trans_of (Inherits OnStrings)
      ((inherits_codePre code internal).of_apply before).memory (host heap))
      (hook (.codePost text) (fun _ _ impossible => nomatch impossible) _)
  | unprepared code internal texts before => exact ((inherits_codePre code internal).of_apply before).memory
  | @refused t t₁ p e before =>
    have inherits := p.inherits_before t
    rwa [before] at inherits
  | @abandoned t t₁ t₂ p q _ before _ inside =>
    have inherits := p.inherits_before t
    rw [before] at inherits
    exact trans_of (Inherits OnStrings) inherits inside
  | @paired t t₁ t₂ p q result _ before _ _ _ cuts inside =>
    have inherits := p.inherits_before t
    rw [before] at inherits
    exact trans_of (Inherits OnStrings) (trans_of (Inherits OnStrings) inherits inside)
      (Paired.inherits_after cuts)
  | called _ _ inside => exact inside
  | done t | nothing t => exact refl_of (Inherits OnStrings) t.memory
  | next _ _ first rest => exact trans_of (Inherits OnStrings) first rest
  | between heap _ _ rest | host heap _ _ rest => exact trans_of (Inherits OnStrings) (host heap) rest
  | @body t t₁ t₂ t₃ f enter _ _ operations rest =>
    exact trans_of (Inherits OnStrings) (trans_of (Inherits OnStrings)
      ((inherits_enterFunction f).of_apply enter).memory operations)
      (trans_of (Inherits OnStrings) (inherits_exitFunction false t₂).memory rest)

namespace Visits

variable {phase : Phase} {t t' : Tracker}

/-- At every moment identities can be marked. -/
theorem adopts (h : Visits phase t t') (opened : phase.Opened t.memory) :
    t.memory.Adopts t'.memory := by
  induction h with
  | start t => exact refl_of Adopts t.memory
  | complete operation => exact operation.adopts opened
  | preparing code internal texts => exact adopts_codePre internal texts
  | begun p => exact p.adopts_before
  | @inside t t₁ t₂ p q regular before _ inside =>
    have adopts := p.adopts_before (t := t)
    rw [before] at adopts
    have hands := Paired.hands_of_before (Paired.atRest_of_before before) before
    exact trans_of Adopts adopts (inside (hands.ready regular))
  | called ready _ inside => exact inside ready
  | later first _ rest => exact trans_of Adopts (first.adopts trivial) (rest trivial)
  | waiting first => exact first.adopts opened
  | entered f first enter _ operations =>
    exact trans_of Adopts (first.adopts opened) (trans_of Adopts
      ((adopts_enterFunction f).of_apply enter).memory (operations trivial))

/-- At every moment maps are recorded for strings only. -/
theorem inherits (h : Visits phase t t') : Inherits OnStrings t.memory t'.memory := by
  induction h with
  | start t => exact refl_of (Inherits OnStrings) t.memory
  | complete operation => exact operation.inherits
  | preparing code internal texts => exact (inherits_codePre code internal _).memory
  | begun p => exact p.inherits_before _
  | @inside t t₁ t₂ p q regular before _ inside =>
    have inherits := p.inherits_before t
    rw [before] at inherits
    exact trans_of (Inherits OnStrings) inherits inside
  | called ready _ inside => exact inside
  | later first _ rest => exact trans_of (Inherits OnStrings) first.inherits rest
  | waiting first => exact first.inherits
  | entered f first enter _ operations =>
    exact trans_of (Inherits OnStrings) first.inherits (trans_of (Inherits OnStrings)
      ((inherits_enterFunction f).of_apply enter).memory operations)

/-- Whatever lies on the heap when a run starts, in every state that a host which passes on what it gets
takes the tracker to, the check of the ghost functions and that of the sinks agree about every value. -/
theorem checks_agree {settings : Settings} {heap h : Heap}
    (visits : Visits .operations ((Tracker.start settings heap).withHeap h) t) (v : Value) :
    t.memory.taintAny v = t.memory.isTainted v := by
  have unmarked : ((Tracker.start settings heap).withHeap h).memory.Sorted [] :=
    ⟨rfl, fun _ _ handle => absurd handle (Array.not_mem_empty _)⟩
  have unrecorded : ((Tracker.start settings heap).withHeap h).memory.OnStrings :=
    fun _ _ found => nomatch found
  obtain ⟨kinds, -, sorted⟩ := visits.adopts trivial [] unmarked
  exact taintAny_eq_isTainted (visits.inherits unrecorded) sorted.unmixed v

end Visits

/-- A heap with an object, a function, and the function that taints characters. -/
def Heap.getterAndSource : Heap :=
  ⟨#[{ kind := .plain "Object" }, { kind := .function { name := "getter" } },
    { kind := .function { name := "__jalangi_set_prop_taint__" } }]⟩

/-- The tracker at the start of a run on that heap. -/
def Tracker.withGetter : Tracker := (start {} ⟨#[]⟩).withHeap .getterAndSource

/-- The call that taints the first character. -/
def Call.taintFirst (v : Value) : Call :=
  { f := .object 2, base := .undefined, args := [v, .string "0"], site := 1 }

/-- The string that comes up first. -/
def Value.firstText : Value := .shadow ⟨0⟩ ⟨0⟩ (.string "ab")

/-- The tracker when its first character is tainted. -/
def Tracker.withFirstTainted : Tracker :=
  ((Paired.call (.taintFirst .firstText)).before ((Hook.literal (.string "ab")).run withGetter).2).2

/-- Both checks find the character. -/
theorem Visits.checks_agree_character : Visits .operations withGetter withFirstTainted ∧
    withFirstTainted.memory.taintAny .firstText = true ∧
    withFirstTainted.memory.isTainted .firstText = true := by
  have visits : Visits .operations withGetter withFirstTainted :=
    .later (.next (.single (.literal (.string "ab")) trivial) (.done _)) (.begun _)
  have tainted : withFirstTainted.memory.isTainted .firstText = true := by decide +kernel
  exact ⟨visits, (Visits.checks_agree visits .firstText).trans tainted, tainted⟩

/-- The first character of a string is tainted. Then a property is read, whose getter reads a property
under the name of that string; the getter of this one is left by an exception, which the first getter
catches. Returns what comes back for the name of the first property. -/
def Tracker.catchInGetter : HookM Value := do
  let s ← literal (.string "ab")
  let c ← callPre (.taintFirst s)
  let _ ← callPost c .undefined
  let offset ← literal (.literal (.bool true))
  let (base, raw) ← getFieldPre (.object 0) offset
  enterFunction (.object 1)
  let _ ← getFieldPre (.object 0) s
  enterFunction (.object 1)
  exitFunction true
  exitFunction false
  let ops ← getField base raw .undefined
  return ops.offset

/-- The name comes back under the identity of the string, and the two checks disagree about it. -/
theorem Tracker.catchInGetter_disagrees : ∃ v, (catchInGetter withGetter).1 = .ok v ∧
    (catchInGetter withGetter).2.memory.taintAny v = false ∧
    (catchInGetter withGetter).2.memory.isTainted v = true :=
  ⟨.shadow ⟨2⟩ ⟨0⟩ (.bool true), rfl, by decide +kernel, by decide +kernel⟩

end ShadowTaint
