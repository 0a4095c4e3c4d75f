import Mathlib.Data.List.Forall2
import ShadowTaint.Proofs.Ghosts
import ShadowTaint.Proofs.Relabel
import ShadowTaint.Tracker.Calls
/-!
# Calls of sinks

The hook before a call notes the call in the histories of all arguments and then refuses it, if the
callee is a sink and an argument is tainted. This file shows that the check is exact: the notes do
not change what counts as tainted, and what is reported are the tainted arguments and no others.

## Main statements

- `Tracker.checkCall_cases`: the check passes, or it reports exactly the tainted arguments.
- `Tracker.callPre_sinkReached_iff`: when a call is refused because of a sink, and what is reported.
-/

namespace ShadowTaint

open Memory

/-- The fault is the finding that a sink was reached. -/
def Fault.IsSinkReached (e : Fault) : Prop :=
  ∃ name indices paths, e = .finding ⟨.sinkReached name indices, paths⟩

theorem Fault.OfGhost.not_sinkReached {e : Fault} (h : e.OfGhost) : ¬ e.IsSinkReached := by
  rintro ⟨name, indices, paths, rfl⟩
  cases h

namespace MemoryM

/-- Reading the histories of recorded values returns what is recorded. -/
theorem histories {Q : Value × Nat → Provenance.Node → Prop} (ps : List (Value × Nat)) (m : Memory)
    (recorded : ∀ p ∈ ps, ∃ e, m.stored? p.1 = some e ∧ Q p e.path) :
    List.Forall₂ Q ps (ps.mapM (fun p => history p.1) m).1 := by
  induction ps generalizing m with
  | nil => exact .nil
  | cons p rest ih =>
    rw [List.mapM_cons]
    obtain ⟨e, found, holds⟩ := recorded p List.mem_cons_self
    refine .cons ?_ (ih (history p.1 m).2 fun q mem => recorded q (List.mem_cons_of_mem _ mem))
    show Q p (m.entryOf p.1).path
    rwa [Memory.entryOf, found]

theorem answersAs_history (v : Value) : Within AnswersAs (history v) :=
  fun _ => ⟨rfl, rfl, rfl, rfl, fun _ => rfl, fun _ => rfl, fun _ => rfl⟩

end MemoryM

namespace Tracker

/-- The tainted arguments are selected in order, each with its own index. -/
theorem taintedArguments_spec (m : Memory) (args : List Value) :
    ((taintedArguments m args).map (·.2)).Pairwise (· < ·) ∧
      ∀ v i, (v, i) ∈ taintedArguments m args ↔ args[i]? = some v ∧ m.isTainted v = true := by
  constructor
  · have sub : ((taintedArguments m args).map (·.2)).Sublist (args.zipIdx.map (·.2)) :=
      List.filter_sublist.map _
    rw [List.zipIdx_map_snd] at sub
    exact List.Pairwise.sublist sub List.pairwise_lt_range'
  · intro v i
    rw [taintedArguments, List.mem_filter, List.mk_mem_zipIdx_iff_getElem?]

theorem not_isEmpty_taintedArguments (m : Memory) (args : List Value) :
    (!(taintedArguments m args).isEmpty) = args.any m.isTainted := by
  obtain ⟨-, selected⟩ := taintedArguments_spec m args
  rw [Bool.eq_iff_iff, Bool.not_eq_true', List.isEmpty_eq_false_iff_exists_mem, List.any_eq_true]
  constructor
  · rintro ⟨⟨v, i⟩, mem⟩
    obtain ⟨found, tainted⟩ := (selected v i).mp mem
    exact ⟨v, List.mem_of_getElem? found, tainted⟩
  · rintro ⟨v, mem, tainted⟩
    obtain ⟨i, found⟩ := List.getElem?_of_mem mem
    exact ⟨(v, i), (selected v i).mpr ⟨found, tainted⟩⟩

theorem taintedArguments_of_answers {m m' : Memory} (h : m.AnswersAs m') (args : List Value) :
    taintedArguments m' args = taintedArguments m args := by
  rw [taintedArguments, taintedArguments]
  simp only [h.isTainted]

/-- What is reported about a call: the indices of the tainted arguments, and for each of them its
history with the notes of the call on top. -/
structure Reports (m : Memory) (args : List Value) (name : String) (indices : List Nat)
    (paths : List Provenance.Node) : Prop where
  increasing : indices.Pairwise (· < ·)
  exact : ∀ i, i ∈ indices ↔ ∃ arg, args[i]? = some arg ∧ m.isTainted arg = true
  histories : List.Forall₂ (fun i path => ∃ arg, args[i]? = some arg ∧
    m.Noted s!"call:{name}" args arg path) indices paths

theorem noteCall_apply (c : Call) (label : String) (t : Tracker) :
    HookM.onMemory (c.args.forM (MemoryM.relabel · label)) t =
      (.ok (), { t with memory := (c.args.forM (MemoryM.relabel · label) t.memory).2 }) := by
  rw [HookM.onMemory_apply, forM_lift_apply]

/-- The memory once the call is noted in the histories of its arguments. -/
def notedBy (t : Tracker) (c : Call) : Memory :=
  (c.args.forM (MemoryM.relabel · s!"call:{t.memory.functionName (t.memory.calleeOf c)}") t.memory).2

theorem answersAs_notedBy (t : Tracker) (c : Call) : t.memory.AnswersAs (t.notedBy c) :=
  MemoryM.answersAs_relabels c.args _ t.memory

/-- Once the call is noted, the check looks for a sink that is reached. It reports that, or it refuses
the call with the histories of the arguments. -/
theorem checkCall_apply (c : Call) (t : Tracker) :
    checkCall c t =
      if !(taintedArguments (t.notedBy c) c.args).isEmpty &&
          t.sinks.isSink (t.notedBy c).heap (t.memory.calleeOf c) then
        if t.settings.sinkReport then
          (.ok (), reportSink { t with memory := t.notedBy c }
            (t.memory.functionName (t.memory.calleeOf c)))
        else
          let read := (taintedArguments (t.notedBy c) c.args).mapM (fun p => MemoryM.history p.1)
            (t.notedBy c)
          (.error (.finding ⟨.sinkReached (t.memory.functionName (t.memory.calleeOf c))
            ((taintedArguments (t.notedBy c) c.args).map (·.2)), read.1⟩), { t with memory := read.2 })
      else (.ok (), { t with memory := t.notedBy c }) := by
  have noted : HookM.onMemory (c.args.forM (MemoryM.relabel ·
      s!"call:{t.memory.functionName (t.memory.calleeOf c)}")) t =
      (.ok (), { t with memory := t.notedBy c }) := noteCall_apply c _ t
  unfold checkCall
  rw [get_bind_apply]
  dsimp only
  rw [bind_apply_ok noted, get_bind_apply]
  dsimp only
  by_cases reached : (!(taintedArguments (t.notedBy c) c.args).isEmpty &&
      t.sinks.isSink (t.notedBy c).heap (t.memory.calleeOf c)) = true
  · rw [if_pos reached, if_pos reached]
    by_cases report : t.settings.sinkReport = true
    · rw [if_pos report, if_pos report]
      rfl
    · rw [if_neg report, if_neg report]
      have read := HookM.onMemory_apply ((taintedArguments (t.notedBy c) c.args).mapM fun p =>
        liftM (MemoryM.history p.1)) { t with memory := t.notedBy c }
      rw [mapM_lift_apply] at read
      exact bind_apply_ok read
  · rw [if_neg reached, if_neg reached]
    rfl

/-- The check passes, unless the callee is a sink and an argument is tainted. Then the tainted
arguments are reported. Either way no query can tell that it took place. -/
theorem checkCall_cases (c : Call) {t : Tracker} (off : t.settings.sinkReport = false) :
    (∃ m', checkCall c t = (.ok (), { t with memory := m' }) ∧ t.memory.AnswersAs m' ∧
      ¬ (t.sinks.isSink t.memory.heap (t.memory.calleeOf c) = true ∧
        ∃ arg ∈ c.args, t.memory.isTainted arg = true)) ∨
    ∃ indices paths m',
      checkCall c t = (.error (.finding
        ⟨.sinkReached (t.memory.functionName (t.memory.calleeOf c)) indices, paths⟩),
          { t with memory := m' }) ∧ t.memory.AnswersAs m' ∧
      t.sinks.isSink t.memory.heap (t.memory.calleeOf c) = true ∧
      (∃ arg ∈ c.args, t.memory.isTainted arg = true) ∧
      Reports t.memory c.args (t.memory.functionName (t.memory.calleeOf c)) indices paths := by
  obtain ⟨increasing, selected⟩ := taintedArguments_spec t.memory c.args
  have same := t.answersAs_notedBy c
  have noted (arg : Value) (mem : arg ∈ c.args) (tainted : t.memory.isTainted arg = true) :
      ∃ e, (t.notedBy c).stored? arg = some e ∧ t.memory.Noted
        s!"call:{t.memory.functionName (t.memory.calleeOf c)}" c.args arg e.path :=
    MemoryM.noted_history _ mem tainted
  rw [checkCall_apply]
  -- the arguments are noted first, which changes no answer; only that is used from here on
  generalize t.notedBy c = m₁ at same noted ⊢
  rw [taintedArguments_of_answers same, same.heap, off, not_isEmpty_taintedArguments]
  by_cases refused : (c.args.any t.memory.isTainted &&
      t.sinks.isSink t.memory.heap (t.memory.calleeOf c)) = true
  · right
    rw [if_pos refused, if_neg Bool.false_ne_true]
    rw [Bool.and_eq_true, List.any_eq_true] at refused
    obtain ⟨tainted, sink⟩ := refused
    refine ⟨_, _, _, rfl, trans_of AnswersAs same
      (Within.mapM (fun p : Value × Nat => MemoryM.answersAs_history p.1) _ m₁), sink, tainted, increasing, ?_, ?_⟩
    · intro i
      rw [List.mem_map]
      constructor
      · rintro ⟨p, mem, rfl⟩
        exact ⟨p.1, (selected p.1 p.2).mp mem⟩
      · rintro ⟨arg, hi⟩
        exact ⟨(arg, i), (selected arg i).mpr hi, rfl⟩
    · rw [List.forall₂_map_left_iff]
      refine MemoryM.histories _ m₁ fun p mem => ?_
      obtain ⟨hi, tainted⟩ := (selected p.1 p.2).mp mem
      obtain ⟨e, found, noted⟩ := noted p.1 (List.mem_of_getElem? hi) tainted
      exact ⟨e, found, p.1, hi, noted⟩
  · left
    rw [if_neg refused]
    refine ⟨m₁, rfl, same, fun ⟨sink, tainted⟩ => refused ?_⟩
    rw [sink, Bool.and_true, List.any_eq_true]
    exact tainted

/-- The check of a call notes the call in the histories of the arguments, and it may read these. -/
theorem within_checkCall {R : Memory → Memory → Prop} [IsPreorder Memory R]
    (noted : ∀ v label, Within R (MemoryM.relabel v label))
    (read : ∀ v, Within R (MemoryM.history v)) (c : Call) : Within (Follows R) (checkCall c) := by
  intro t
  have noted : R t.memory (t.notedBy c) := Within.forM (fun v => noted v _) c.args t.memory
  rw [checkCall_apply]
  split
  · split
    · unfold reportSink
      split <;> exact ⟨rfl, rfl, noted⟩
    · exact ⟨rfl, rfl, trans_of R noted (Within.mapM (fun p : Value × Nat => read p.1) _ _)⟩
  · exact ⟨rfl, rfl, noted⟩

/-- The check of the arguments fails because of a sink only. -/
theorem raises_checkCall (c : Call) : Raises Fault.IsSinkReached (checkCall c) := by
  intro t e t' failed
  rw [checkCall_apply] at failed
  split at failed
  · split at failed
    · cases failed
    · cases failed
      exact ⟨_, _, _, rfl⟩
  · cases failed

/-- The check of a call only notes the call in histories. It passes, or it ends in a finding. -/
theorem checkCall_passes (c : Call) (t : Tracker) :
    (∃ t', checkCall c t = (.ok (), t') ∧ Follows Marks t t') ∨
      ∃ f t', checkCall c t = (.error (.finding f), t') ∧ Follows Marks t t' := by
  have marks := within_checkCall MemoryM.marks_relabel MemoryM.marks_history c t
  rcases run : checkCall c t with ⟨e | ⟨⟩, t'⟩ <;> rw [run] at marks
  · obtain ⟨_, _, _, rfl⟩ := raises_checkCall c t e t' run
    exact .inr ⟨_, t', rfl, marks⟩
  · exact .inl ⟨t', rfl, marks⟩

section Entering

/-- What the hook before a call of a ghost function does once the arguments have passed the check. -/
def enterGhost (ghost : Ghost) (c : Call) : HookM Call := do
  HookM.onMemory (CheckedM.expectIdle "WGhostCall")
  ghost.run c.args
  return c

/-- What the hook before a call does once the arguments have passed the check: a ghost function runs, and for
any other function the operands are prepared. -/
def enterCall (c : Call) (native : Bool) : HookM Call := do
  let t ← get
  match t.ghostOf? c with
  | none => HookM.onMemory (openCall c native t.settings.policies)
  | some ghost =>
    HookM.onMemory (CheckedM.expectIdle "WGhostCall")
    ghost.run c.args
    return c

theorem callPreBody_eq (c : Call) (native : Bool) :
    callPreBody c native = (checkCall c >>= fun _ => enterCall c native) := rfl

variable {c : Call} {t t₁ : Tracker}

theorem callPreBody_of_real (passed : checkCall c t = (.ok (), t₁)) (real : t₁.ghostOf? c = none)
    (native : Bool) :
    callPreBody c native t = HookM.onMemory (openCall c native t₁.settings.policies) t₁ := by
  rw [callPreBody_eq, bind_apply_ok passed, enterCall, get_bind_apply, real]

theorem callPreBody_of_called (passed : checkCall c t = (.ok (), t₁)) {ghost : Ghost}
    (called : t₁.ghostOf? c = some ghost) (native : Bool) :
    callPreBody c native t = enterGhost ghost c t₁ := by
  rw [callPreBody_eq, bind_apply_ok passed, enterCall, get_bind_apply, called]
  rfl

theorem within_enterGhost {R : Tracker → Tracker → Prop} [IsPreorder Tracker R] {ghost : Ghost}
    (idle : Within R (HookM.onMemory (CheckedM.expectIdle "WGhostCall")))
    (ran : Within R (ghost.run c.args)) : Within R (enterGhost ghost c) :=
  .bind_except idle fun _ => .bind_except ran fun _ => .pure_except _

end Entering

section Faults

variable {P : Fault → Prop}

theorem raises_checkPending (h : ∀ v, P (.violation v)) (site : String) (expected : Nat) :
    Raises P (CheckedM.checkPending site expected) := by
  refine .bind .get fun m => ?_
  split
  · exact .pure _
  · exact .throw (h _)

theorem raises_expectIdle (h : ∀ v, P (.violation v)) (site : String) :
    Raises P (CheckedM.expectIdle site) := by
  refine .bind .get fun m => ?_
  split
  · exact .bind (raises_checkPending h _ _) fun _ => .bind (.lift _) fun _ =>
      raises_checkPending h _ _
  · exact raises_checkPending h _ _

theorem raises_openCall (h : ∀ v, P (.violation v)) (c : Call) (native : Bool) (levels : Levels) :
    Raises P (openCall c native levels) := by
  refine .bind (raises_expectIdle h _) fun _ => .bind (.lift _) fun f => ?_
  split
  · exact .bind (.lift _) fun _ => .pure _
  · split
    · exact .bind (.lift _) fun _ => .bind .get fun _ => .bind (.lift _) fun _ =>
        .bind (.lift _) fun _ => .pure _
    · exact .bind (.pure _) fun _ => .bind .get fun _ => .bind (.lift _) fun _ =>
        .bind (.lift _) fun _ => .pure _

end Faults

/-- Once the arguments have passed the check, a call is not refused because of a sink. -/
theorem callPreBody_of_passed {c : Call} {t t₁ : Tracker} (passed : checkCall c t = (.ok (), t₁))
    (native : Bool) {e : Fault} {t' : Tracker} (failed : callPreBody c native t = (.error e, t')) :
    ¬ e.IsSinkReached := by
  have violation (v : Violation) : ¬ (Fault.violation v).IsSinkReached := by
    rintro ⟨name, indices, paths, eq⟩
    cases eq
  rcases called : t₁.ghostOf? c with _ | ghost
  · rw [callPreBody_of_real passed called] at failed
    have raises := raises_openCall (P := fun e => ¬ e.IsSinkReached) violation c native
      t₁.settings.policies
    exact raises.onMemory _ _ _ failed
  · have idle := raises_expectIdle (P := fun e => ¬ e.IsSinkReached) violation "WGhostCall"
    have ran := (Ghost.modest_run ghost c.args).raises.mono fun _ => Fault.OfGhost.not_sinkReached
    rw [callPreBody_of_called passed called] at failed
    rcases bind_eq_error.mp failed with failed | ⟨_, t₂, -, failed⟩
    · exact idle.onMemory _ _ _ failed
    · rcases bind_eq_error.mp failed with failed | ⟨_, t₃, -, failed⟩
      · exact ran _ _ _ failed
      · cases failed

theorem callPreBody_of_refused {c : Call} {t t₁ : Tracker} {e : Fault}
    (refused : checkCall c t = (.error e, t₁)) (native : Bool) :
    callPreBody c native t = (.error e, t₁) :=
  bind_apply_error refused

/-- The call with what the hook before it finds out about where it leads. -/
def placed (t : Tracker) (c : Call) : Call := { c with external := t.memory.isExternalCall c }

theorem callPre_run (t : Tracker) (c : Call) :
    ∃ t₀ t', t.Logs t₀ ∧
      callPre c t =
        ((callPreBody (t.placed c) (t.memory.isNativeCall (t.placed c)) t₀).1, t') ∧
      Logs { (callPreBody (t.placed c) (t.memory.isNativeCall (t.placed c)) t₀).2 with
        memory := (callPreBody (t.placed c) (t.memory.isNativeCall (t.placed c))
          t₀).2.memory.ended } t' := by
  unfold callPre
  rw [get_bind_apply]
  exact HookM.hook_run _ _ _ t

/-- Where sinks are not only reported, a call is refused because of a sink exactly when the callee is
one and an argument is tainted, as queries answered before the hook. What is reported are the
tainted arguments in order, with their histories below the note of the call, and the refusal leaves
everything as it was that a query or a later hook can see. -/
theorem callPre_sinkReached_iff (t : Tracker) (off : t.settings.sinkReport = false) (c : Call) :
    ((∃ name indices paths t',
        callPre c t = (.error (.finding ⟨.sinkReached name indices, paths⟩), t')) ↔
      t.sinks.isSink t.memory.heap (t.memory.calleeOf c) = true ∧
        ∃ arg ∈ c.args, t.memory.isTainted arg = true) ∧
    ∀ name indices paths t',
      callPre c t = (.error (.finding ⟨.sinkReached name indices, paths⟩), t') →
        name = t.memory.functionName (t.memory.calleeOf c) ∧
        Reports t.memory c.args name indices paths ∧
        t.memory.AnswersAs t'.memory ∧ ∀ v, t'.memory.isTainted v = t.memory.isTainted v := by
  obtain ⟨t₀, t', logs, run, ended⟩ := callPre_run t c
  have callee : t₀.memory.calleeOf (t.placed c) = t.memory.calleeOf c := by
    rw [logs.memory]
    rfl
  have off₀ : t₀.settings.sinkReport = false := by rw [logs.settings, off]
  have cases := checkCall_cases (t.placed c) off₀
  rw [callee, logs.memory, logs.sinks] at cases
  rcases cases with ⟨m', passed, -, clean⟩ |
    ⟨indices, paths, m', refused, same, sink, tainted, reports⟩
  · have other (name indices paths t'') :
        callPre c t ≠ (.error (.finding ⟨.sinkReached name indices, paths⟩), t'') := by
      intro reached
      rw [run] at reached
      exact callPreBody_of_passed passed (t.memory.isNativeCall (t.placed c))
        (Prod.ext (Prod.mk.inj reached).1 rfl) ⟨name, indices, paths, rfl⟩
    exact ⟨⟨fun ⟨_, _, _, _, reached⟩ => absurd reached (other _ _ _ _),
      fun h => absurd h clean⟩, fun _ _ _ _ reached => absurd reached (other _ _ _ _)⟩
  · have failed := callPreBody_of_refused refused (t.memory.isNativeCall (t.placed c))
    rw [failed] at run ended
    refine ⟨⟨fun _ => ⟨sink, tainted⟩, fun _ => ⟨_, indices, paths, t', run⟩⟩, ?_⟩
    intro name' indices' paths' t'' reached
    rw [run] at reached
    cases reached
    have answers : t.memory.AnswersAs t'.memory := by
      have memory : t'.memory = m'.ended := ended.memory
      have cleared : m'.AnswersAs m'.ended :=
        ⟨rfl, rfl, rfl, rfl, fun _ => rfl, fun _ => rfl, fun _ => rfl⟩
      rw [memory]
      exact trans_of AnswersAs same cleared
    exact ⟨rfl, reports, answers, answers.isTainted⟩

/-- A tracker on whose heap lie a function that starts programs and a tainted object. -/
def withExec : Tracker where
  settings := {}
  memory :=
    { heap := ⟨#[{ kind := .function { name := "exec", native := some (.process .exec) } },
        { kind := .plain "Object" }]⟩
      shadow := { entries := .ofList [(.object 1, { bit := true, chars := none, path := .leaf 0 "" })] } }
  ghosts := {}
  scope := {}

/-- Starting a program with a tainted argument is refused. -/
theorem callPre_exec_refused : withExec.settings.sinkReport = false ∧
    ∃ name indices paths t',
      callPre { f := .object 0, base := .undefined, args := [.object 1], site := 0 } withExec =
        (.error (.finding ⟨.sinkReached name indices, paths⟩), t') :=
  ⟨rfl, (callPre_sinkReached_iff withExec rfl _).1.mpr
    ⟨by decide, .object 1, List.mem_singleton_self _, by decide⟩⟩

end Tracker

end ShadowTaint
