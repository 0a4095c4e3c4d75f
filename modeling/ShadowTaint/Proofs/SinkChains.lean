import ShadowTaint.Proofs.SinkGrowth
/-!
# Functions that come out of sinks

Where sinks are propagated, a function that a call returns becomes a sink if the call was given one,
and its own results do if it is passed on. Nothing that happens later undoes this, so every function
at the end of a chain of such calls refuses tainted arguments.

## Main definitions

- `Session.Laundered`: a function was a sink, or it came out of calls that were given one.

## Main statements

- `Tracker.callPost_isSink`: one call makes a function a sink.
- `Session.laundered_isSink`: a chain of calls does, and for the rest of the run.
-/

namespace ShadowTaint

open Memory

/-- An object is handed to the host as it is. -/
theorem Memory.HandedOut.mem_object {m : Memory} {vs rs : List Value}
    {ids : List Identity} (h : m.HandedOut vs rs ids) {x : ObjectId} (mem : .object x ∈ vs) :
    .object x ∈ rs := by
  induction h with
  | nil => exact nomatch mem
  | cons head _ ih =>
    rcases List.mem_cons.mp mem with rfl | mem
    · rw [head.object x rfl]
      exact List.mem_cons_self
    · exact List.mem_cons_of_mem _ (ih mem)

namespace Tracker

section Passing

variable {t t₁ : Tracker} {c q : Call}

/-- The hook before a call is accepted at rest only. -/
theorem atRest_of_callPre (before : callPre c t = (.ok q, t₁)) : t.memory.shadow.AtRest := by
  obtain ⟨t₀, t', logs, run, -⟩ := callPre_run t c
  rw [before] at run
  have body := (Prod.mk.inj run).1.symm
  rcases checkCall_passes (t.placed c) t₀ with ⟨t₂, passed, marks⟩ | ⟨f, t₂, refused, -⟩
  · have idle : ∃ site m, CheckedM.expectIdle site t₂.memory = (.ok (), m) := by
      rcases returned : callPreBody (t.placed c) (t.memory.isNativeCall (t.placed c)) t₀
        with ⟨r, t₃⟩
      rw [returned] at body
      cases body
      rcases called : t₂.ghostOf? (t.placed c) with _ | ghost
      · rw [callPreBody_of_real passed called, HookM.onMemory_apply] at returned
        obtain ⟨⟨⟩, m, idle, -⟩ := bind_eq_ok.mp (Prod.ext (Prod.mk.inj returned).1 rfl)
        exact ⟨_, m, idle⟩
      · rw [callPreBody_of_called passed called] at returned
        obtain ⟨⟨⟩, t₄, idle, -⟩ := bind_eq_ok.mp returned
        rw [HookM.onMemory_apply] at idle
        exact ⟨_, _, Prod.ext (Prod.mk.inj idle).1 rfl⟩
    obtain ⟨site, m, idle⟩ := idle
    have rest := CheckedM.atRest_of_expectIdle idle
    unfold ShadowState.AtRest at rest ⊢
    rwa [marks.memory.context, marks.memory.frame, logs.memory] at rest
  · rw [callPreBody_of_refused refused] at body
    cases body

/-- The host gets every object among the arguments as it is. -/
theorem mem_args_of_callPre (before : callPre c t = (.ok q, t₁)) {x : ObjectId}
    (arg : .object x ∈ c.args) : .object x ∈ q.args := by
  rcases callPre_cases (atRest_of_callPre before) c with ⟨q', t₂, run, hands⟩ | ⟨e, t₂, run, -⟩
  · rw [before] at run
    cases run
    cases hands with
    | ghost called leaves => exact arg
    | call real hands opens context =>
      cases hands with
      | internal inside outf => exact arg
      | function outside plain outf outs => exact outs.mem_object arg
      | method outside method outf outb outs => exact outs.mem_object arg
  · rw [before] at run
    cases run

end Passing

/-- What the hook after a call does once the result was looked at keeps the memory. -/
theorem follows_closing (c : Call) (result : Value) (native : Bool) (t : Tracker) :
    Within (Follows Keeps) (HookM.onMemory (closeCall c result t.settings.policies) >>=
      concludeCall c native t : HookM (Call × Value)) := by
  have spread {α : Type} {x : HookM α} (h : Within (Follows Spreads) x) :
      Within (Follows Keeps) x := h.mono fun _ _ h => h.mono fun _ _ h => h.toKeeps
  exact .bind_except (HookM.follows_onMemory (keeps_closeCall _ _ _)) (within_concludeCall
    (fun _ _ _ => spread (HookM.follows_onMemory (.lift (spreads_propagateCall _ _ _))))
    (fun _ _ => spread (follows_tagImport _ _)) c native t)

/-- Where sinks are not only reported, a tainted argument of a sink is refused. -/
theorem callPre_reaches {t : Tracker} (fatal : t.settings.sinkReport = false) {c : Call}
    (sink : t.IsSink (t.memory.calleeOf c)) (tainted : ∃ arg ∈ c.args, t.memory.isTainted arg = true) :
    ∃ name indices paths t',
      callPre c t = (.error (.finding ⟨.sinkReached name indices, paths⟩), t') := by
  obtain ⟨t₀, t', logs, run, -⟩ := callPre_run t c
  have cases := checkCall_cases (t.placed c) (t := t₀) (by rw [logs.settings, fatal])
  have callee : t₀.memory.calleeOf (t.placed c) = t.memory.calleeOf c := by
    rw [logs.memory]
    rfl
  rw [callee, logs.memory, logs.sinks] at cases
  rcases cases with ⟨m, -, -, clean⟩ | ⟨indices, paths, m, refused, -⟩
  · exact absurd ⟨sink, tainted⟩ clean
  · rw [callPreBody_of_refused refused] at run
    exact ⟨_, indices, paths, t', run⟩

/-- Laundering makes a function a sink if an argument is one. -/
theorem launderSinks_isSink {t : Tracker} {c : Call} {x y : ObjectId} (arg : .object x ∈ c.args)
    (sink : t.IsSink (.object x)) (callable : t.memory.heap.isFunction (.object y) = true) :
    (launderSinks c (.object y) t).2.IsSink (.object y) := by
  have found : (c.args.findSome? fun arg =>
      t.sinks.find? t.memory.heap (t.memory.valueOf arg)).isSome = true := by
    rw [List.isSome_findSome?, List.any_eq_true]
    exact ⟨_, arg, sink⟩
  obtain ⟨pattern, found⟩ := Option.isSome_iff_exists.mp found
  have registered := (HookM.registerSink_sinks (.object y) .laundered pattern.category t).2 y rfl
  unfold launderSinks
  rw [get_bind_apply]
  have own : t.memory.valueOf (.object y) = .object y := rfl
  rw [own, if_pos callable, found]
  dsimp only
  rcases run : HookM.registerSink (.object y) .laundered pattern.category t with ⟨e | b, t'⟩
  · rw [run] at registered
    rw [bind_apply_error run]
    exact registered
  · rw [run] at registered
    rw [bind_apply_ok run]
    exact registered

theorem Logs.isSink {t t' : Tracker} (logs : t.Logs t') {v : Value} : t'.IsSink v ↔ t.IsSink v := by
  rw [IsSink, IsSink, logs.sinks, logs.memory]

/-- Where sinks are propagated, the hook after a call that was given a sink makes the function that the
call returns a sink. -/
theorem callPost_isSink {t : Tracker} (named : ∀ p ∈ t.sinks.patterns, p.Named)
    (propagates : t.settings.aggressiveSinkPropagation = true) {q : Call} {x y : ObjectId}
    (real : t.ghostOf? q = none) (arg : .object x ∈ q.args) (sink : t.IsSink (.object x))
    (callable : t.memory.heap.isFunction (.object y) = true) :
    (callPost q (.object y) t).2.IsSink (.object y) := by
  obtain ⟨t₀, t', logs, run, ended⟩ : ∃ t₀ t', t.Logs t₀ ∧ callPost q (.object y) t =
      ((callPostBody q (.object y) (t.memory.isNativeCall q) t₀).1, t') ∧
      Logs { (callPostBody q (.object y) (t.memory.isNativeCall q) t₀).2 with
        memory := (callPostBody q (.object y) (t.memory.isNativeCall q) t₀).2.memory.ended } t' := by
    unfold callPost
    rw [get_bind_apply]
    exact HookM.hook_run _ _ _ t
  have real₀ : t₀.ghostOf? q = none := by rwa [ghostOf?, logs.ghosts, logs.memory]
  have laundered := launderSinks_isSink (t := t₀) arg (logs.isSink.mpr sink)
    (by rwa [logs.memory])
  obtain ⟨t₁, launders⟩ : ∃ t₁, launderSinks q (.object y) t₀ = (.ok (), t₁) := by
    rcases launders : launderSinks q (.object y) t₀ with ⟨e | ⟨⟩, t₁⟩
    · exact (raises_launderSinks q (.object y) t₀ e t₁ launders).elim
    · exact ⟨t₁, rfl⟩
  rw [launders] at laundered
  have named₁ : ∀ p ∈ t₁.sinks.patterns, p.Named := by
    have ext : t₀.ExtendsSinks t₁ := (within_launderSinks HookM.extends_registerSink q (.object y)).of_apply launders
    exact ext.named (by rwa [logs.sinks])
  -- once the result is a sink, the rest of the hook only wraps, tags and records
  have body : callPostBody q (.object y) (t.memory.isNativeCall q) t₀ =
      (HookM.onMemory (closeCall q (.object y) t₀.settings.policies) >>=
        concludeCall q (t.memory.isNativeCall q) t₀ : HookM (Call × Value)) t₁ := by
    rw [callPostBody_eq, get_bind_apply, real₀]
    dsimp only
    rw [if_neg (by decide), if_pos (by rw [logs.settings, propagates, Bool.or_true])]
    exact bind_apply_ok launders
  have evolves := (follows_closing q (.object y) (t.memory.isNativeCall q) t₀ t₁).memory.evolves
  have closed := (outside_extendsSinks.closing q (.object y) (t.memory.isNativeCall q) t₀ t₁).isSink named₁ evolves
    laundered
  rw [← body] at closed
  rw [run]
  exact ended.isSink.mpr closed

end Tracker

namespace Session

variable {s : Session}

/-- The function was a sink at some point of the run, or it came, through any chain of calls, out of
calls that were given such a function: the hook before the call handed its operands to the host, and
when the hook after the call is called with them and with the function as the result, the callee is no
ghost function. In between and afterwards any hooks may be called. -/
inductive Laundered (s : Session) : List Event → ObjectId → Prop where
  | sink {events : List Event} {x : ObjectId}
      (sink : (s.run events).tracker.IsSink (.object x)) : Laundered s events x
  | later {events : List Event} {x : ObjectId} (laundered : Laundered s events x) {e : Event}
      (spared : ¬ (s.run events).Rebuilds e) : Laundered s (events ++ [e]) x
  | call {before between : List Event} {c q : Call} {x y : ObjectId}
      (handed : (Tracker.callPre c (s.run before).tracker).1 = .ok q) (arg : .object x ∈ c.args)
      (laundered : Laundered s (before ++ .hook (.callPre c) :: between) x)
      (real : (s.run (before ++ .hook (.callPre c) :: between)).tracker.ghostOf? q = none)
      (callable : (s.run (before ++ .hook (.callPre c) :: between)).tracker.memory.heap.isFunction
        (.object y) = true) :
      Laundered s (before ++ .hook (.callPre c) :: between ++ [.hook (.callPost q (.object y))]) y

theorem Laundered.hook {events : List Event} {x : ObjectId} (laundered : s.Laundered events x)
    (h : Hook) : s.Laundered (events ++ [.hook h]) x :=
  .later laundered id

theorem run_append_singleton (events : List Event) (e : Event) :
    s.run (events ++ [e]) = (s.run events).after e := by
  rw [run, List.foldl_append]
  rfl

theorem tracker_after_callPost (q : Call) (result : Value) :
    (s.after (.hook (.callPost q result))).tracker = (Tracker.callPost q result s.tracker).2 :=
  snd_bind_of_pure (fun _ _ => rfl) s.tracker

theorem Laundered.isSink (reachable : Reachable s.tracker)
    (propagates : s.tracker.settings.aggressiveSinkPropagation = true) {events : List Event}
    {x : ObjectId} (laundered : s.Laundered events x) :
    (s.run events).tracker.IsSink (.object x) := by
  -- over the chain: what was a sink stays one, and a call passes this on to its result
  induction laundered with
  | sink sink => exact sink
  | later _ spared ih =>
    rw [run_append_singleton]
    exact isSink_after (reachable_run reachable _) ih spared
  | call handed arg _ real callable ih =>
    rw [run_append_singleton, tracker_after_callPost]
    exact Tracker.callPost_isSink (reachable_run reachable _).named
      (by rw [settings_run, propagates]) real
      (Tracker.mem_args_of_callPre (Prod.ext handed rfl) arg) ih callable

/-- Where sinks are propagated, every function that was a sink, or that came through a chain of calls out
of calls that were given one, is a sink from then on, and calling it with a tainted argument is
refused, unless sinks are only reported or the function calls its receiver instead. -/
theorem laundered_isSink (reachable : Reachable s.tracker)
    (propagates : s.tracker.settings.aggressiveSinkPropagation = true) {events : List Event}
    {x : ObjectId} (laundered : s.Laundered events x) :
    (s.run events).tracker.IsSink (.object x) ∧
    ∀ c : Call, c.f = .object x → (s.run events).tracker.memory.builtin? c.f ≠ some .call →
      (s.run events).tracker.memory.builtin? c.f ≠ some .apply →
      s.tracker.settings.sinkReport = false →
      (∃ arg ∈ c.args, (s.run events).tracker.memory.isTainted arg = true) →
      ∃ name indices paths t', Tracker.callPre c (s.run events).tracker =
        (.error (.finding ⟨.sinkReached name indices, paths⟩), t') := by
  have sink := laundered.isSink reachable propagates
  refine ⟨sink, fun c callee noCall noApply fatal tainted => ?_⟩
  refine Tracker.callPre_reaches (by rw [settings_run, fatal]) ?_ tainted
  have same : (s.run events).tracker.memory.calleeOf c = .object x := by
    unfold calleeOf
    split
    · rename_i found
      exact absurd found noCall
    · rename_i found
      exact absurd found noApply
    · rw [callee]
      rfl
  rw [same]
  exact sink

/-- A heap with a function that starts programs, a function that wraps functions, two functions without
a name, an object, and the function that taints values. -/
def wrappersAndExec : Heap :=
  ⟨#[{ kind := .function { name := "exec", native := some (.process .exec) } },
    { kind := .function { name := "promisify" } }, { kind := .function { name := "" } },
    { kind := .function { name := "" } }, { kind := .plain "Object" },
    { kind := .function { name := "__jalangi_set_taint__" } }]⟩

/-- The call that wraps a function. -/
def wrapping (f : ObjectId) (site : CallSite) : Call :=
  { f := .object 1, base := .undefined, args := [.object f], site }

/-- The object is tainted. -/
def taintObject : List Event :=
  [.host wrappersAndExec,
    .hook (.callPre { f := .object 5, base := .undefined, args := [.object 4], site := 1 })]

/-- The function that starts programs is wrapped, and the wrapper is read from a property, which gives it a
name. -/
def wrapExec : List Event :=
  taintObject ++ .hook (.callPre (wrapping 0 2)) :: [] ++ [.hook (.callPost (wrapping 0 2) (.object 2))] ++
    [.hook (.getFieldPre (.object 4) (.string "run"))] ++
    [.hook (.getField (.object 4) (.string "run") (.object 2))]

/-- The wrapper is wrapped again. -/
def wrapTwice : List Event :=
  wrapExec ++ .hook (.callPre (wrapping 2 3)) :: [] ++ [.hook (.callPost (wrapping 2 3) (.object 3))]

theorem laundered_wrapExec : (start {} ⟨#[]⟩).Laundered wrapExec 2 := by
  have sink : ((start {} ⟨#[]⟩).run (taintObject ++ .hook (.callPre (wrapping 0 2)) :: [])).tracker.IsSink
      (.object 0) := by
    unfold Tracker.IsSink
    decide +kernel
  have handed : (Tracker.callPre (wrapping 0 2) ((start {} ⟨#[]⟩).run taintObject).tracker).1 =
      .ok (wrapping 0 2) := rfl
  have callable : ((start {} ⟨#[]⟩).run (taintObject ++
      .hook (.callPre (wrapping 0 2)) :: [])).tracker.memory.heap.isFunction (.object 2) = true := by
    decide +kernel
  have wrapped := Laundered.call handed (List.mem_singleton_self _) (.sink sink) (by decide +kernel)
    callable
  exact (wrapped.hook _).hook _

set_option maxRecDepth 2000 in
theorem laundered_wrapTwice : (start {} ⟨#[]⟩).Laundered wrapTwice 3 := by
  have handed : (Tracker.callPre (wrapping 2 3) ((start {} ⟨#[]⟩).run wrapExec).tracker).1 =
      .ok (wrapping 2 3) := rfl
  have still := laundered_wrapExec.hook (.callPre (wrapping 2 3))
  exact .call handed (List.mem_singleton_self _) still (by decide +kernel) (by decide +kernel)

/-- The wrapper of the wrapper refuses the tainted object. -/
theorem laundered_isSink_wrapTwice :
    (start {} ⟨#[]⟩).Laundered wrapTwice 3 ∧
    ∃ name indices paths t',
      Tracker.callPre { f := .object 3, base := .undefined, args := [.object 4], site := 4 }
        (run (start {} ⟨#[]⟩) wrapTwice).tracker =
          (.error (.finding ⟨.sinkReached name indices, paths⟩), t') :=
  ⟨laundered_wrapTwice, (laundered_isSink (.start _ _) rfl laundered_wrapTwice).2 _ rfl
    (by decide +kernel) (by decide +kernel) rfl
    ⟨.object 4, List.mem_singleton_self _, by decide +kernel⟩⟩

end Session

end ShadowTaint
