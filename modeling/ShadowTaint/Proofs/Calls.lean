import ShadowTaint.Proofs.Protocol
import ShadowTaint.Proofs.SinkCheck
/-!
# The hooks of calls

The hook before a call reserves the identities of the operands in the frame of the caller, saves that
frame under the call site and starts a new one. The hook after the call goes back to the saved frame
and takes the identities off again. What happens in between is not seen by the caller, as long as the
saved frames are the same when the callee returns.

## Main definitions

- `Memory.HandsCall`: how a call is handed to the host.
- `Memory.Opens`: a frame for a call is started on top of the frame of the caller.
- `Tracker.rewrapCall`: what the hook after a call does once the frame of the caller is back.

## Main statements

- `Tracker.closeCall_of_restored`, `Tracker.closeCall_of_failed`: the hook after a call goes back to the
  saved frame, or fails without one.
- `Tracker.closeCall_within`: it stays within what going back and wrapping stay within.
- `Tracker.openCall_ok`, `Tracker.closeCall_ok`: the hooks of a call, but for its checks.
- `Tracker.callPreBody_cases`, `Tracker.callPostBody_ok`: their bodies.
-/

namespace ShadowTaint

open Memory

/-- The call is handed to the host, and the identities of its operands are reserved: the function
loses its shadow, and so do the receiver of a method and the arguments, if the call leaves the
analysed program. -/
inductive Memory.HandsCall (m : Memory) (c : Call) : Call → List Identity → Prop where
  | internal {f : Value} {idf : Identity} (inside : c.external = false)
      (outf : m.HandsOut c.f f idf) : HandsCall m c { c with f } [idf]
  | function {f : Value} {idf : Identity} {args : List Value} {ids : List Identity}
      (outside : c.external = true) (plain : c.method = false) (outf : m.HandsOut c.f f idf)
      (outs : m.HandedOut c.args args ids) :
      HandsCall m c { c with f, args } (ids.reverse ++ [idf])
  | method {f base : Value} {idf idb : Identity} {args : List Value} {ids : List Identity}
      (outside : c.external = true) (method : c.method = true) (outf : m.HandsOut c.f f idf)
      (outb : m.HandsOut c.base base idb) (outs : m.HandedOut c.args args ids) :
      HandsCall m c { c with f, base, args } (ids.reverse ++ [idb, idf])

/-- The operands of a call come back, each in its place. -/
structure Memory.CallComesBack (m m' : Memory) (c c' : Call) : Prop where
  f : m.ComesBack m' c.f c'.f
  base : m.ComesBack m' c.base c'.base
  args : List.Forall₂ (m.ComesBack m') c.args c'.args

theorem Memory.CallComesBack.mono {m m' m'' : Memory} {c c' : Call}
    (h : m.CallComesBack m' c c') (grows : m'.Grows m'') : m.CallComesBack m'' c c' where
  f := h.f.mono grows
  base := h.base.mono grows
  args := h.args.imp fun _ _ back => back.mono grows

theorem Memory.Grows.callComesBack {m m' : Memory} (h : m.Grows m') (c : Call) :
    m.CallComesBack m' c c where
  f := h.comesBack _
  base := h.comesBack _
  args := List.forall₂_same.mpr fun _ _ => h.comesBack _

/-- The frame of the caller is saved under a call site with the given identities reserved, and a new
frame is current. -/
structure Memory.Opens (site : CallSite) (ids : List Identity) (m m' : Memory) : Prop
    extends Keeps m m' where
  reserved : m'.shadow.frame.reserved = []
  callSite : m'.shadow.frame.callSite = site
  frames : ∃ trees, ∀ other, m'.shadow.framesAt other =
    if site = other then { m.shadow.frame with reserved := ids, trees } :: m.shadow.framesAt site
    else m.shadow.framesAt other

/-- The frame of the caller, with nothing reserved, is current again, and the saved frames are those
that were below it. -/
structure Memory.Closes (site : CallSite) (caller : Frame) (rest : List Frame) (m m' : Memory) :
    Prop extends Keeps m m' where
  frame : m'.shadow.frame = caller.withReserved []
  frames : ∀ other, m'.shadow.framesAt other =
    if site = other then rest else m.shadow.framesAt other

theorem Memory.Closes.andSpreads {site : CallSite} {caller : Frame} {rest : List Frame}
    {m m' m'' : Memory} (h : m.Closes site caller rest m') (spreads : m'.Spreads m'') :
    m.Closes site caller rest m'' where
  toKeeps := h.toKeeps.trans spreads.toKeeps
  frame := spreads.frame.trans h.frame
  frames other := by
    rw [ShadowState.framesAt_of_saved spreads.saved]
    exact h.frames other

theorem Memory.Closes.afterSpreads {site : CallSite} {caller : Frame} {rest : List Frame}
    {m m' m'' : Memory} (h : m'.Closes site caller rest m'') (spreads : m.Spreads m') :
    m.Closes site caller rest m'' where
  toKeeps := spreads.toKeeps.trans h.toKeeps
  frame := h.frame
  frames other := by
    rw [h.frames, ShadowState.framesAt_of_saved spreads.saved]

theorem Memory.Opens.afterMarks {site : CallSite} {ids : List Identity} {m m' m'' : Memory}
    (h : m'.Opens site ids m'') (marks : m.Marks m') : m.Opens site ids m'' where
  toKeeps := marks.spreads.toKeeps.trans h.toKeeps
  reserved := h.reserved
  callSite := h.callSite
  frames := by
    obtain ⟨trees, frames⟩ := h.frames
    refine ⟨trees, fun other => ?_⟩
    rw [frames, ShadowState.framesAt_of_saved marks.saved, ShadowState.framesAt_of_saved marks.saved,
      marks.frame]

theorem Memory.HandsCall.mono {m m' : Memory} {c q : Call} {ids : List Identity}
    (h : m'.HandsCall c q ids) (grows : m.Grows m') : m.HandsCall c q ids := by
  cases h with
  | internal inside outf => exact .internal inside (outf.mono grows)
  | function outside plain outf outs =>
    exact .function outside plain (outf.mono grows) (outs.mono grows)
  | method outside method outf outb outs =>
    exact .method outside method (outf.mono grows) (outb.mono grows) (outs.mono grows)

namespace MemoryM

/-- Saving a frame keeps what earlier steps kept. -/
theorem keeps_saveFrame (callType : CallType) (site : CallSite) :
    Within Keeps (modifyShadow (·.saveFrame callType site)) :=
  fun m => (refl_of Keeps m).withShadow (fun _ _ h => h) (Nat.le_refl _) fun _ after =>
    ShadowState.bounded_saveFrame after callType site

/-- What is saved under the call site is the frame that was current. -/
theorem opens_saveFrame {m m₁ : Memory} {ids : List Identity} {trees : Table ObjectId (List TaintTree)}
    (keeps : m.Keeps m₁)
    (frame : m₁.shadow.frame = { m.shadow.frame with reserved := ids, trees })
    (saved : m₁.shadow.saved = m.shadow.saved) (callType : CallType) (site : CallSite) :
    m.Opens site ids (modifyShadow (·.saveFrame callType site) m₁).2 where
  toKeeps := keeps.trans (keeps_saveFrame callType site m₁)
  reserved := rfl
  callSite := rfl
  frames := by
    refine ⟨trees, fun other => ?_⟩
    have at' := ShadowState.framesAt_saveFrame m₁.shadow callType site other
    rwa [ShadowState.framesAt_of_saved saved, ShadowState.framesAt_of_saved saved, frame] at at'

end MemoryM

namespace Tracker

section Opening

/-- At rest a frame for a call can be started, and the identities of the operands are reserved in the
frame of the caller. -/
theorem openCall_ok {m : Memory} (rest : m.shadow.AtRest) (c : Call) (native : Bool)
    (levels : Levels) : ∃ q ids m', openCall c native levels m = (.ok q, m') ∧
      m.HandsCall c q ids ∧ m.Opens c.site ids m' := by
  obtain ⟨m₁, idle, dropped, -⟩ := CheckedM.expectIdle_ok rest "WInvokeFunPre"
  obtain ⟨idf, outf, first⟩ := MemoryM.stacks_unwrap c.f m₁
  obtain ⟨f, m₂, run₂⟩ : ∃ f m₂, MemoryM.unwrap c.f m₁ = (f, m₂) := ⟨_, _, rfl⟩
  rw [run₂, dropped.reserved] at first
  rw [run₂] at outf
  have stacked := dropped.trans first
  have outf' := outf.mono dropped.toGrows
  unfold openCall
  rw [bind_apply_ok idle, lift_bind_of run₂]
  -- only code outside gets its arguments prepared, and a method its receiver
  rcases Bool.eq_false_or_eq_true c.external with outside | inside
  · rw [if_neg (by rw [outside]; decide)]
    rcases Bool.eq_false_or_eq_true c.method with method | plain
    · obtain ⟨idb, outb, second⟩ := MemoryM.stacks_unwrap c.base m₂
      obtain ⟨base, m₃, run₃⟩ : ∃ base m₃, MemoryM.unwrap c.base m₂ = (base, m₃) := ⟨_, _, rfl⟩
      rw [run₃, stacked.reserved] at second
      rw [run₃] at outb
      have stacked₃ := stacked.trans second
      obtain ⟨ids, trees, outs, keeps, frame, saved, -⟩ :=
        MemoryM.stacks_prepareArguments (levels.policyFor m₃.heap base) c.f c.args m₃
      obtain ⟨args, m₄, run₄⟩ : ∃ args m₄, MemoryM.prepareArguments
        (levels.policyFor m₃.heap base) c.f c.args m₃ = (args, m₄) := ⟨_, _, rfl⟩
      rw [run₄, stacked₃.frame] at frame
      rw [run₄] at outs keeps saved
      refine ⟨{ c with f, base, args }, _, _, ?_, .method outside method outf'
        (outb.mono stacked.toGrows) (outs.mono stacked₃.toGrows), MemoryM.opens_saveFrame
          (stacked₃.toKeeps.trans keeps) frame (saved.trans stacked₃.saved)
          (.ofCall true native) c.site⟩
      rw [if_pos method, lift_bind_of run₃]
      dsimp only
      rw [get_bind_apply, lift_bind_of run₄]
      rfl
    · obtain ⟨ids, trees, outs, keeps, frame, saved, -⟩ :=
        MemoryM.stacks_prepareArguments (levels.policyFor m₂.heap c.base) c.f c.args m₂
      obtain ⟨args, m₄, run₄⟩ : ∃ args m₄, MemoryM.prepareArguments
        (levels.policyFor m₂.heap c.base) c.f c.args m₂ = (args, m₄) := ⟨_, _, rfl⟩
      rw [run₄, stacked.frame] at frame
      rw [run₄] at outs keeps saved
      refine ⟨{ c with f, args }, _, _, ?_, .function outside plain outf'
        (outs.mono stacked.toGrows), MemoryM.opens_saveFrame (stacked.toKeeps.trans keeps) frame
          (saved.trans stacked.saved) (.ofCall true native) c.site⟩
      rw [if_neg (by rw [plain]; decide), pure_bind]
      dsimp only
      rw [get_bind_apply, lift_bind_of run₄]
      rfl
  · rw [if_pos (by rw [inside]; decide)]
    exact ⟨{ c with f }, [idf], _, rfl, .internal inside outf', MemoryM.opens_saveFrame
      stacked.toKeeps stacked.frame stacked.saved .internal c.site⟩

/-- The hook before a call stays within what taking shadows off, preparing the arguments and saving a
frame stay within. -/
theorem within_openCall {R : Memory → Memory → Prop} [IsPreorder Memory R]
    (discards : Within R MemoryM.discard) (unwraps : ∀ v, Within R (MemoryM.unwrap v))
    (prepares : ∀ policy f args, Within R (MemoryM.prepareArguments policy f args))
    (saves : ∀ callType site, Within R (MemoryM.modifyShadow (·.saveFrame callType site)))
    (c : Call) (native : Bool) (levels : Levels) : Within R (openCall c native levels) := by
  refine .bind_except (CheckedM.within_expectIdle discards _) fun _ =>
    .bind_except (.lift (unwraps _)) fun f => ?_
  have opened (base : Value) : Within R (do
      let m ← get
      let args ← MemoryM.prepareArguments (levels.policyFor m.heap base) c.f c.args
      MemoryM.modifyShadow (·.saveFrame (.ofCall true native) c.site)
      return { c with f, base, args } : CheckedM Call) :=
    .bind_except .get_except fun _ => .bind_except (.lift (prepares _ _ _)) fun _ =>
      .bind_except (.lift (saves _ _)) fun _ => .pure_except _
  split
  · exact .bind_except (.lift (saves _ _)) fun _ => .pure_except _
  · split
    · exact .bind_except (.lift (unwraps _)) opened
    · exact .bind_except (.pure_except _) opened

end Opening

section Rewrapping

/-- The receiver of a method comes back. -/
def rewrapReceiver (levels : Levels) (c : Call) : CheckedM Call :=
  if c.method then do
    let base ← MemoryM.wrap levels c.base
    return { c with base }
  else return c

/-- The function of a call comes back, the result gets a shadow, and nothing is left to come back. -/
def rewrapFunction (levels : Levels) (result : Value) (c : Call) : CheckedM (Call × Value) := do
  let f ← MemoryM.wrap levels c.f
  let result ← MemoryM.wrap levels result
  CheckedM.checkPending "WInvokeFun" 0
  return ({ c with f }, result)

/-- What the hook after a call does in the frame of the caller. -/
def rewrapCall (c : Call) (result : Value) (levels : Levels) : CheckedM (Call × Value) := do
  let c ←
    if c.external then do
      let m ← get
      let args ← MemoryM.restoreArguments levels (m.policyOf levels c.base) c.f c.args
      let base ← if c.method then MemoryM.wrap levels c.base else pure c.base
      pure { c with base, args }
    else pure c
  let f ← MemoryM.wrap levels c.f
  let result ← MemoryM.wrap levels result
  CheckedM.checkPending "WInvokeFun" 0
  return ({ c with f }, result)

variable {levels : Levels} {m m₁ : Memory} {c : Call}

theorem rewrapReceiver_of_method (method : c.method = true) :
    rewrapReceiver levels c = do
      let base ← MemoryM.wrap levels c.base
      return { c with base } :=
  if_pos method

theorem rewrapReceiver_of_plain (plain : c.method = false) : rewrapReceiver levels c = pure c :=
  if_neg (by rw [plain]; decide)

/-- A call inside the analysed program gave nothing away but its function. -/
theorem rewrapCall_of_inside (inside : c.external = false) (result : Value) :
    rewrapCall c result levels = rewrapFunction levels result c := by
  unfold rewrapCall
  rw [if_neg (by rw [inside]; decide), pure_bind]
  rfl

/-- From outside the arguments come back first, then the receiver of a method, then the function. -/
theorem rewrapCall_of_outside (outside : c.external = true) {args : List Value}
    (run : MemoryM.restoreArguments levels (m.policyOf levels c.base) c.f c.args m = (args, m₁))
    (result : Value) : rewrapCall c result levels m =
      (rewrapReceiver levels { c with args } >>= rewrapFunction levels result) m₁ := by
  unfold rewrapCall
  rw [if_pos outside, get_bind_apply, lift_bind_of run]
  rcases Bool.eq_false_or_eq_true c.method with method | plain
  · rw [rewrapReceiver_of_method (c := { c with args }) method, if_pos method]
    rfl
  · rw [rewrapReceiver_of_plain (c := { c with args }) plain, if_neg (by rw [plain]; decide)]
    rfl

theorem closeCall_of_restored {s : ShadowState} (restored : m.shadow.restoreFrame c.site = .ok s)
    (result : Value) :
    closeCall c result levels m = rewrapCall c result levels { m with shadow := s } := by
  unfold closeCall
  rw [get_bind_apply, restored]
  rfl

theorem closeCall_of_failed {e : Violation} (failed : m.shadow.restoreFrame c.site = .error e)
    (result : Value) : closeCall c result levels m = (.error (.violation e), m) := by
  unfold closeCall
  rw [get_bind_apply, failed]
  rfl

section Within

variable {R : Memory → Memory → Prop} [IsPreorder Memory R]
  (wraps : ∀ v, Within R (MemoryM.wrap levels v))
include wraps

theorem within_rewrapReceiver (c : Call) : Within R (rewrapReceiver levels c) := by
  unfold rewrapReceiver
  split
  · exact .bind_except (.lift (wraps _)) fun _ => .pure_except _
  · exact .pure_except _

theorem within_rewrapFunction (result : Value) (c : Call) :
    Within R (rewrapFunction levels result c) :=
  .bind_except (.lift (wraps _)) fun _ => .bind_except (.lift (wraps _)) fun _ =>
    .bind_except (CheckedM.within_checkPending _ _) fun _ => .pure_except _

/-- Once the arguments are back, all that is left is to wrap values. -/
theorem restoreArguments_rewrapCall (outside : c.external = true) (result : Value) :
    R (MemoryM.restoreArguments levels (m.policyOf levels c.base) c.f c.args m).2
      (rewrapCall c result levels m).2 := by
  rw [rewrapCall_of_outside outside rfl]
  exact Within.bind_except (within_rewrapReceiver wraps _) (within_rewrapFunction wraps result) _

theorem rewrapCall_within
    (restores : Within R (MemoryM.restoreArguments levels (m.policyOf levels c.base) c.f c.args))
    (result : Value) : R m (rewrapCall c result levels m).2 := by
  rcases Bool.eq_false_or_eq_true c.external with outside | inside
  · exact trans_of R (restores m) (restoreArguments_rewrapCall wraps outside result)
  · rw [rewrapCall_of_inside inside]
    exact within_rewrapFunction wraps result c m

/-- The hook after a call stays within what going back to a saved frame, restoring the arguments there
and wrapping stay within. -/
theorem closeCall_within
    (frames : ∀ s, m.shadow.restoreFrame c.site = .ok s → R m { m with shadow := s })
    (restores : ∀ s, Within R (MemoryM.restoreArguments levels
      (Memory.policyOf ⟨m.heap, s⟩ levels c.base) c.f c.args)) (result : Value) :
    R m (closeCall c result levels m).2 := by
  rcases restored : m.shadow.restoreFrame c.site with e | s
  · rw [closeCall_of_failed restored]
    exact refl_of R m
  · rw [closeCall_of_restored restored]
    exact trans_of R (frames s restored) (rewrapCall_within wraps (restores s) result)

end Within

theorem raises_closeCall {P : Fault → Prop} (h : ∀ v, P (.violation v)) (c : Call) (result : Value)
    (levels : Levels) : Raises P (closeCall c result levels) := by
  have last (c : Call) : Raises P (rewrapFunction levels result c) :=
    .bind (.lift _) fun _ => .bind (.lift _) fun _ => .bind (raises_checkPending h _ _) fun _ => .pure _
  intro m e m' failed
  rcases restored : m.shadow.restoreFrame c.site with v | s
  · rw [closeCall_of_failed restored] at failed
    cases failed
    exact h v
  · rw [closeCall_of_restored restored] at failed
    rcases Bool.eq_false_or_eq_true c.external with outside | inside
    · rw [rewrapCall_of_outside outside rfl] at failed
      refine Raises.bind ?_ last _ _ _ failed
      unfold rewrapReceiver
      split
      · exact .bind (.lift _) fun _ => .pure _
      · exact .pure _
    · rw [rewrapCall_of_inside inside] at failed
      exact last c _ _ _ failed

end Rewrapping

section Closing

/-- Where a frame was saved under the call site, going back to it succeeds. -/
theorem restoreFrame_ok {m : Memory} {site : CallSite} {caller : Frame} {rest : List Frame}
    (saved : m.shadow.framesAt site = caller :: rest) :
    ∃ s, m.shadow.restoreFrame site = .ok s ∧ s.frame = caller ∧
      m.Keeps { m with shadow := s } ∧ ∀ other, s.framesAt other =
        if site = other then rest else m.shadow.framesAt other := by
  obtain ⟨table, restored, frames⟩ := ShadowState.restoreFrame_of_framesAt saved
  refine ⟨_, restored, rfl, ?_, frames⟩
  exact (refl_of Keeps m).withShadow (fun _ _ h => h) (Nat.le_refl _) fun _ bounded =>
    ShadowState.bounded_restoreFrame bounded restored

/-- The last part of the hook after a call, when only the identity of the function is left. -/
theorem wrapFunction_ok (levels : Levels) {m₀ m : Memory} {f : Value} {idf : Identity} (c : Call)
    (outf : m₀.HandsOut f c.f idf) (grows : m₀.Grows m) (reserved : m.shadow.frame.reserved = [idf])
    (result : Value) :
    ∃ f' w m', rewrapFunction levels result c m = (.ok ({ c with f := f' }, w), m') ∧ m.Stacks [] m' ∧
      (m.shadow.frame.callType.skipsWrapping = false →
        m₀.ComesBack m' f f' ∧ m.Fresh result w) := by
  obtain ⟨f', m₁, run₁, s₁, back⟩ := MemoryM.wrap_back levels outf grows reserved
  obtain ⟨w, m₂, run₂, s₂, fresh⟩ := MemoryM.wrap_result levels s₁.reserved result
  refine ⟨f', w, m₂, ?_, s₁.trans s₂, fun wraps => ⟨?_, ?_⟩⟩
  · rw [rewrapFunction, lift_bind_of run₁, lift_bind_of run₂,
      bind_apply_ok (CheckedM.checkPending_ok (by rw [s₂.reserved]; rfl))]
    rfl
  · exact (back wraps).mono s₂.toGrows
  · exact (fresh (by rw [s₁.callType, wraps])).mono s₁.toGrows

/-- Arguments that were handed out come back from the top of the stack. -/
theorem restoreArguments_back (levels : Levels) (policy : Policy) (f : Value) {m₀ m : Memory}
    {vs rs : List Value} {ids below : List Identity} (outs : m₀.HandedOut vs rs ids)
    (grows : m₀.Grows m) (reserved : m.shadow.frame.reserved = ids.reverse ++ below) :
    ∃ ws m', MemoryM.restoreArguments levels policy f rs m = (ws, m') ∧ m.Stacks below m' ∧
      (m.shadow.frame.callType.skipsWrapping = false →
        List.Forall₂ (m₀.ComesBack m') vs ws) := by
  have stacked := MemoryM.stacks_restoreArguments levels policy f rs m
  rw [reserved, outs.length.1.trans outs.length.2.symm, ← List.length_reverse,
    List.drop_left] at stacked
  exact ⟨_, _, rfl, stacked,
    MemoryM.comesBack_restoreArguments levels policy f outs grows reserved⟩

/-- The hook after a call, once the frame of the caller is current again: the identities come off the
stack in the reverse of the order in which they were put there. -/
theorem wrapCall_ok (levels : Levels) {m₀ m : Memory} {c q : Call} {ids : List Identity}
    (hands : m₀.HandsCall c q ids) (grows : m₀.Grows m) (reserved : m.shadow.frame.reserved = ids)
    (result : Value) :
    ∃ c' w m', rewrapCall q result levels m = (.ok (c', w), m') ∧ m.Stacks [] m' ∧
      (m.shadow.frame.callType.skipsWrapping = false →
        m₀.CallComesBack m' c c' ∧ m.Fresh result w) := by
  -- as for what was handed out: the function alone, the function and arguments, or all of them
  cases hands with
  | @internal f idf inside outf =>
    obtain ⟨f', w, m', run, stacked, back⟩ := wrapFunction_ok levels { c with f } outf grows reserved
      result
    refine ⟨{ c with f := f' }, w, m', ?_, stacked,
      fun wraps => ⟨⟨(back wraps).1, ?_, ?_⟩, (back wraps).2⟩⟩
    · rw [rewrapCall_of_inside (c := { c with f }) inside]
      exact run
    · exact (grows.trans stacked.toGrows).comesBack _
    · exact ((grows.trans stacked.toGrows).callComesBack c).args
  | @function f idf args ids outside plain outf outs =>
    obtain ⟨ws, m₁, run₁, s₁, backs⟩ := restoreArguments_back levels (m.policyOf levels c.base) f
      outs grows reserved
    obtain ⟨f', w, m', run, stacked, back⟩ := wrapFunction_ok levels { c with f, args := ws } outf
      (grows.trans s₁.toGrows) s₁.reserved result
    have grown := (s₁.trans stacked).toGrows
    refine ⟨{ c with f := f', args := ws }, w, m', ?_, s₁.trans stacked,
      fun wraps => ⟨⟨?_, ?_, ?_⟩, ?_⟩⟩
    · rw [rewrapCall_of_outside (c := { c with f, args }) outside run₁,
        rewrapReceiver_of_plain (c := { c with f, args := ws }) plain, pure_bind]
      exact run
    · exact (back (by rw [s₁.callType, wraps])).1
    · exact (grows.trans grown).comesBack _
    · exact (backs wraps).imp fun _ _ back => back.mono stacked.toGrows
    · exact (back (by rw [s₁.callType, wraps])).2.mono s₁.toGrows
  | @method f base idf idb args ids outside method outf outb outs =>
    obtain ⟨ws, m₁, run₁, s₁, backs⟩ := restoreArguments_back levels (m.policyOf levels base) f
      outs grows reserved
    obtain ⟨base', m₂, run₂, s₂, backb⟩ := MemoryM.wrap_back levels outb
      (grows.trans s₁.toGrows) s₁.reserved
    have s₁₂ := s₁.trans s₂
    obtain ⟨f', w, m', run, stacked, back⟩ := wrapFunction_ok levels
      { c with f, base := base', args := ws } outf (grows.trans s₁₂.toGrows) s₂.reserved result
    refine ⟨{ c with f := f', base := base', args := ws }, w, m', ?_, s₁₂.trans stacked,
      fun wraps => ⟨⟨?_, ?_, ?_⟩, ?_⟩⟩
    · rw [rewrapCall_of_outside (c := { c with f, base, args }) outside run₁,
        rewrapReceiver_of_method (c := { c with f, base, args := ws }) method, bind_assoc,
        lift_bind_of run₂]
      exact run
    · exact (back (by rw [s₁₂.callType, wraps])).1
    · exact (backb (by rw [s₁.callType, wraps])).mono stacked.toGrows
    · exact (backs wraps).imp fun _ _ back => back.mono (s₂.trans stacked).toGrows
    · exact (back (by rw [s₁₂.callType, wraps])).2.mono s₁₂.toGrows

/-- Closing a call whose operands were handed out, when the frames saved under its site are those
that were saved when it was opened. -/
theorem closeCall_ok (levels : Levels) {m₀ m : Memory} {c q : Call} {ids : List Identity}
    (hands : m₀.HandsCall c q ids) (grows : m₀.Grows m) {caller : Frame} {rest : List Frame}
    (saved : m.shadow.framesAt q.site = caller :: rest) (reserved : caller.reserved = ids)
    (result : Value) :
    ∃ c' w m', closeCall q result levels m = (.ok (c', w), m') ∧ m.Closes q.site caller rest m' ∧
      (caller.callType.skipsWrapping = false → m₀.CallComesBack m' c c' ∧ m.Fresh result w) := by
  obtain ⟨s, restored, frame, keeps, frames⟩ := restoreFrame_ok saved
  obtain ⟨c', w, m', run, stacked, back⟩ := wrapCall_ok levels hands
    (m := { m with shadow := s }) (grows.trans keeps.toGrows) (by rw [frame, reserved]) result
  refine ⟨c', w, m', ?_, ⟨keeps.trans stacked.toKeeps, ?_, ?_⟩, ?_⟩
  · rw [closeCall_of_restored restored]
    exact run
  · rw [stacked.frame, frame]
  · intro other
    rw [ShadowState.framesAt_of_saved stacked.saved]
    exact frames other
  · intro wraps
    obtain ⟨comes, fresh⟩ := back (by rw [frame, wraps])
    exact ⟨comes, fresh.mono keeps.toGrows⟩

end Closing

section Keeping

theorem keeps_unwrap (v : Value) : Within Keeps (MemoryM.unwrap v) := by
  intro m
  obtain ⟨id, -, stacked⟩ := MemoryM.stacks_unwrap v m
  exact stacked.toKeeps

theorem keeps_wrap (levels : Levels) (v : Value) : Within Keeps (MemoryM.wrap levels v) :=
  fun m => (MemoryM.stacks_wrap levels v m).toKeeps

theorem keeps_prepareArguments (policy : Policy) (f : Value) (args : List Value) :
    Within Keeps (MemoryM.prepareArguments policy f args) := by
  intro m
  obtain ⟨ids, trees, -, keeps, -⟩ := MemoryM.stacks_prepareArguments policy f args m
  exact keeps

theorem keeps_restoreArguments (levels : Levels) (policy : Policy) (f : Value)
    (args : List Value) : Within Keeps (MemoryM.restoreArguments levels policy f args) :=
  fun m => (MemoryM.stacks_restoreArguments levels policy f args m).toKeeps

theorem keeps_openCall (c : Call) (native : Bool) (levels : Levels) :
    Within Keeps (openCall c native levels) :=
  within_openCall (fun m => (MemoryM.stacks_discard m).toKeeps) keeps_unwrap keeps_prepareArguments
    MemoryM.keeps_saveFrame c native levels

theorem keeps_closeCall (c : Call) (result : Value) (levels : Levels) :
    Within Keeps (closeCall c result levels) := by
  refine fun m => closeCall_within (keeps_wrap levels) (fun s restored => ?_)
    (fun _ => keeps_restoreArguments _ _ _ _) result
  rcases ShadowState.restoreFrame_cases m.shadow c.site with
    ⟨f, rest, saved, found, -, -⟩ | failed
  · obtain ⟨s', restored', -, keeps, -⟩ := restoreFrame_ok found
    rw [restored] at restored'
    cases restored'
    exact keeps
  · rw [restored] at failed
    cases failed

end Keeping

section Checking

/-- An action either succeeds, or it fails with one of its faults. -/
theorem run_cases {σ ε α : Type} {R : σ → σ → Prop} {P : ε → Prop} {x : ExceptT ε (StateM σ) α}
    (within : Within R x) (raises : Raises P x) (s : σ) :
    (∃ a s', x s = (.ok a, s') ∧ R s s') ∨ ∃ e s', x s = (.error e, s') ∧ P e ∧ R s s' := by
  have related := within s
  rcases run : x s with ⟨e | a, s'⟩ <;> rw [run] at related
  · exact .inr ⟨e, s', rfl, raises s e s' run, related⟩
  · exact .inl ⟨a, s', rfl, related⟩

/-- Making a result a sink does not touch the memory. -/
theorem follows_launderSinks {R : Memory → Memory → Prop} [IsPreorder Memory R] (c : Call)
    (result : Value) : Within (Follows R) (launderSinks c result) := by
  refine .bind_except .get_except fun t => ?_
  dsimp only
  split
  · split
    · exact .pure_except _
    · exact .bind_except (HookM.follows_registerSink _ _ _) fun _ => .pure_except _
  · exact .pure_except _

theorem raises_launderSinks (c : Call) (result : Value) :
    Raises (fun _ => False) (launderSinks c result) := by
  refine .bind .get fun t => ?_
  dsimp only
  split
  · split
    · exact .pure _
    · refine .bind (.bind .get fun t => ?_) fun _ => .pure _
      split
      · exact .pure _
      · exact .bind (.lift _) fun _ => .bind (.lift _) fun _ => .pure _
  · exact .pure _

theorem within_propagateCall {R : Memory → Memory → Prop} [IsPreorder Memory R]
    (admits : AdmitsRules R) (c : Call) (result : Value) (levels : Levels) :
    Within R (propagateCall c result levels) := by
  refine .bind .get fun m => ?_
  split
  · exact Policy.within_call _ _ admits _
  · exact .pure _

theorem spreads_propagateCall (c : Call) (result : Value) (levels : Levels) :
    Within Spreads (propagateCall c result levels) :=
  within_propagateCall admitsRules_spreads c result levels

theorem spreads_setImportTag (id : ObjectId) (tag : ImportTag) :
    Within Spreads (MemoryM.modifyHeap (·.setImportTag id tag)) :=
  fun m => (refl_of Spreads m).withHeap (Heap.evolves_setImportTag _ id tag) fun _ sound =>
    Heap.Holding.setImportTag sound id tag

theorem follows_tagImport (c : Call) (result : Value) :
    Within (Follows Spreads) (tagImport c result) := by
  refine .bind_except .get_except fun t => ?_
  dsimp only
  split
  · exact .bind_except (HookM.follows_logEvent _) fun _ =>
      HookM.follows_onMemory (.lift (spreads_setImportTag _ _))
  · exact .pure_except _

theorem raises_tagImport (c : Call) (result : Value) :
    Raises (fun _ => False) (tagImport c result) := by
  refine .bind .get fun t => ?_
  dsimp only
  split
  · exact .bind (.lift _) fun _ => .onMemory (.lift _)
  · exact .pure _

/-- An action that cannot fail succeeds, also where it is only done on a condition. -/
theorem succeeds_if {R : Tracker → Tracker → Prop} [IsPreorder Tracker R] {x : HookM Unit}
    (within : Within R x) (raises : Raises (fun _ => False) x) (p : Prop) [Decidable p]
    (t : Tracker) : ∃ t', (if p then x else pure ()) t = (.ok (), t') ∧ R t t' := by
  split
  · rcases run_cases within raises t with ⟨⟨⟩, t', run, related⟩ | ⟨e, t', -, impossible, -⟩
    · exact ⟨t', run, related⟩
    · exact impossible.elim
  · exact ⟨t, rfl, refl_of R t⟩

end Checking

section Bodies

theorem ghostOf?_of_marks {t t' : Tracker} (h : Follows Marks t t') (c : Call) :
    t'.ghostOf? c = t.ghostOf? c := by
  have same : t'.memory.valueOf c.f = t.memory.valueOf c.f := by
    have lookup : t'.memory.shadow.lookup? c.f = t.memory.shadow.lookup? c.f := by
      cases c.f <;> simp only [ShadowState.lookup?, h.memory.wraps]
    rw [Memory.valueOf, Memory.valueOf, ShadowState.valueOf, ShadowState.valueOf, lookup]
  rw [ghostOf?, ghostOf?, h.ghosts, h.memory.heap, same]

/-- At rest a call of a ghost function runs it, or fails as the check or the function does. -/
theorem callPreBody_of_ghost {t : Tracker} (rest : t.memory.shadow.AtRest) (c : Call)
    (native : Bool) {ghost : Ghost} (called : t.ghostOf? c = some ghost) :
    (∃ t' , callPreBody c native t = (.ok c, t') ∧ t'.settings = t.settings ∧
      t'.ghosts = t.ghosts ∧ t.memory.Stacks [] t'.memory ∧ t'.memory.heap = t.memory.heap) ∨
    ∃ e t', callPreBody c native t = (.error e, t') ∧ ((∃ f, e = .finding f) ∨ e.OfGhost) := by
  rcases checkCall_passes c t with ⟨t₁, passed, marks⟩ | ⟨f, t₁, refused, -⟩
  · have called₁ : t₁.ghostOf? c = some ghost := by rw [ghostOf?_of_marks marks, called]
    have rest₁ : t₁.memory.shadow.AtRest := by
      unfold ShadowState.AtRest
      rw [marks.memory.context, marks.memory.frame]
      exact rest
    obtain ⟨m₂, idle, dropped, heap₂⟩ := CheckedM.expectIdle_ok rest₁ "WGhostCall"
    have idle' : HookM.onMemory (CheckedM.expectIdle "WGhostCall") t₁ =
        (.ok (), { t₁ with memory := m₂ }) := by rw [HookM.onMemory_apply, idle]
    rw [callPreBody_of_called passed called₁, enterGhost, bind_apply_ok idle']
    have modest := Ghost.modest_run ghost c.args
    rcases run_cases modest.marks modest.raises { t₁ with memory := m₂ } with
      ⟨⟨⟩, t₃, ran, follows⟩ | ⟨e, t₃, failed, ofGhost, -⟩
    · left
      have first := marks.memory.spreads
      have last := follows.memory.spreads.stacked
      rw [dropped.reserved] at last
      refine ⟨t₃, by rw [bind_apply_ok ran]; rfl, follows.settings.trans marks.settings,
        follows.ghosts.trans marks.ghosts, (first.stacked.trans dropped).trans last, ?_⟩
      rw [follows.memory.heap, heap₂, marks.memory.heap]
    · exact .inr ⟨e, t₃, bind_apply_error failed, .inr ofGhost⟩
  · exact .inr ⟨_, t₁, bind_apply_error refused, .inl ⟨f, rfl⟩⟩

/-- At rest any other call starts a frame, or fails as the check does. -/
theorem callPreBody_of_none {t : Tracker} (rest : t.memory.shadow.AtRest) (c : Call)
    (native : Bool) (called : t.ghostOf? c = none) :
    (∃ q ids t', callPreBody c native t = (.ok q, t') ∧ t'.settings = t.settings ∧
      t'.ghosts = t.ghosts ∧ t.memory.HandsCall c q ids ∧
      t.memory.Opens c.site ids t'.memory) ∨
    ∃ f t', callPreBody c native t = (.error (.finding f), t') := by
  rcases checkCall_passes c t with ⟨t₁, passed, marks⟩ | ⟨f, t₁, refused, -⟩
  · have called₁ : t₁.ghostOf? c = none := by rw [ghostOf?_of_marks marks, called]
    have rest₁ : t₁.memory.shadow.AtRest := by
      unfold ShadowState.AtRest
      rw [marks.memory.context, marks.memory.frame]
      exact rest
    obtain ⟨q, ids, m', run, hands, opens⟩ := openCall_ok rest₁ c native t₁.settings.policies
    refine .inl ⟨q, ids, { t₁ with memory := m' }, ?_, marks.settings, marks.ghosts,
      hands.mono marks.memory.spreads.toGrows, opens.afterMarks marks.memory⟩
    rw [callPreBody_of_real passed called₁, HookM.onMemory_apply, run]
  · exact .inr ⟨f, t₁, bind_apply_error refused⟩

/-- After a call of a ghost function nothing is done. -/
theorem callPostBody_of_ghost {t : Tracker} {c : Call} {ghost : Ghost}
    (called : t.ghostOf? c = some ghost) (result : Value) (native : Bool) :
    callPostBody c result native t = (.ok (c, result), t) := by
  unfold callPostBody
  rw [get_bind_apply, called]
  rfl

/-- After any other call the operands come back, and nothing can fail. -/
theorem callPostBody_of_none {t : Tracker} {m₀ : Memory} {c q : Call} {ids : List Identity}
    (called : t.ghostOf? q = none) (hands : m₀.HandsCall c q ids) (grows : m₀.Grows t.memory)
    {caller : Frame} {rest : List Frame}
    (saved : t.memory.shadow.framesAt q.site = caller :: rest) (reserved : caller.reserved = ids)
    (result : Value) (native : Bool) :
    ∃ c' w t', callPostBody q result native t = (.ok (c', w), t') ∧
      t'.settings = t.settings ∧ t'.ghosts = t.ghosts ∧
      t.memory.Closes q.site caller rest t'.memory ∧
      (caller.callType.skipsWrapping = false → m₀.CallComesBack t'.memory c c' ∧
        t.memory.Fresh result w) := by
  obtain ⟨t₁, run₁, f₁⟩ := succeeds_if (R := Follows Spreads) (follows_launderSinks q result)
    (raises_launderSinks q result) ((q.external || t.settings.aggressiveSinkPropagation) = true) t
  obtain ⟨c', w, m₂, run₂, closes, back⟩ := closeCall_ok t.settings.policies hands
    (grows.trans f₁.memory.toGrows) (by rw [ShadowState.framesAt_of_saved f₁.memory.saved, saved])
    reserved result
  have run₂' : HookM.onMemory (closeCall q result t.settings.policies) t₁ =
      (.ok (c', w), { t₁ with memory := m₂ }) := by rw [HookM.onMemory_apply, run₂]
  obtain ⟨t₃, run₃, f₃⟩ := succeeds_if (R := Follows Spreads)
    (x := HookM.onMemory (propagateCall c' w t.settings.policies))
    (HookM.follows_onMemory (.lift (spreads_propagateCall c' w t.settings.policies)))
    (.onMemory (.lift _)) (native = true) { t₁ with memory := m₂ }
  obtain ⟨t₄, run₄, f₄⟩ := succeeds_if (follows_tagImport c' w) (raises_tagImport c' w)
    (t.memory.builtin? q.f = some .require) t₃
  have ended := trans_of Spreads f₃.memory f₄.memory
  refine ⟨c', w, t₄, ?_, ?_, ?_, (closes.afterSpreads f₁.memory).andSpreads ended,
    fun wraps => ?_⟩
  · unfold callPostBody
    rw [get_bind_apply, called]
    dsimp only
    rw [if_neg (by decide)]
    refine (if_bind_apply run₁).trans ?_
    rw [bind_apply_ok run₂']
    refine (if_bind_apply run₃).trans ?_
    exact if_bind_apply run₄
  · rw [f₄.settings, f₃.settings, f₁.settings]
  · rw [f₄.ghosts, f₃.ghosts, f₁.ghosts]
  · obtain ⟨comes, fresh⟩ := back wraps
    exact ⟨comes.mono ended.toGrows, fresh.mono f₁.memory.toGrows⟩

theorem follows_checkCall (c : Call) : Within (Follows Keeps) (checkCall c) := by
  intro t
  rcases checkCall_passes c t with ⟨t', run, marks⟩ | ⟨f, t', run, marks⟩
  · rw [run]
    exact marks.mono fun _ _ h => h.spreads.toKeeps
  · rw [run]
    exact marks.mono fun _ _ h => h.spreads.toKeeps

theorem follows_callPreBody (c : Call) (native : Bool) :
    Within (Follows Keeps) (callPreBody c native) := by
  refine .bind_except (follows_checkCall c) fun _ => .bind_except .get_except fun t => ?_
  split
  · exact HookM.follows_onMemory (keeps_openCall _ _ _)
  · refine .bind_except (HookM.follows_onMemory (CheckedM.keeps_expectIdle _)) fun _ =>
      .bind_except ?_ fun _ => .pure_except _
    exact (Ghost.modest_run _ _).marks.mono fun _ _ h => h.mono fun _ _ h => h.spreads.toKeeps

/-- What the hook after a call does once the operands are wrapped: the rule of a native function is applied,
and what the loader has returned is tagged. -/
def concludeCall (c : Call) (native : Bool) (t : Tracker) (r : Call × Value) : HookM (Call × Value) := do
  if native then HookM.onMemory (propagateCall r.1 r.2 t.settings.policies)
  if t.memory.builtin? c.f = some .require then tagImport r.1 r.2
  return r

theorem callPostBody_eq (c : Call) (result : Value) (native : Bool) :
    callPostBody c result native = (do
      let t ← get
      if (t.ghostOf? c).isSome then return (c, result)
      if c.external || t.settings.aggressiveSinkPropagation then launderSinks c result
      HookM.onMemory (closeCall c result t.settings.policies) >>= concludeCall c native t) :=
  rfl

section Within

variable {R : Tracker → Tracker → Prop} [IsPreorder Tracker R]

theorem within_concludeCall
    (propagates : ∀ c result levels, Within R (HookM.onMemory (propagateCall c result levels)))
    (tags : ∀ c result, Within R (tagImport c result)) (c : Call) (native : Bool) (t : Tracker)
    (r : Call × Value) : Within R (concludeCall c native t r) := by
  have tagged : Within R (do
      if t.memory.builtin? c.f = some .require then tagImport r.1 r.2
      return r : HookM (Call × Value)) := by
    split
    · exact .bind_except (tags _ _) fun _ => .pure_except _
    · exact .pure_except _
  unfold concludeCall
  dsimp only
  split
  · exact .bind_except (propagates _ _ _) fun _ => tagged
  · exact tagged

/-- The body of the hook after a call stays within what its four parts stay within. -/
theorem within_callPostBody (c : Call) (result : Value) (native : Bool)
    (launders : Within R (launderSinks c result))
    (closes : ∀ levels, Within R (HookM.onMemory (closeCall c result levels)))
    (propagates : ∀ c result levels, Within R (HookM.onMemory (propagateCall c result levels)))
    (tags : ∀ c result, Within R (tagImport c result)) : Within R (callPostBody c result native) := by
  rw [callPostBody_eq]
  refine .bind_except .get_except fun t => ?_
  have closed := Within.bind_except (closes t.settings.policies)
    (within_concludeCall propagates tags c native t)
  split
  · exact .pure_except _
  · dsimp only
    split
    · exact .bind_except launders fun _ => closed
    · exact closed

end Within

theorem follows_callPostBody (c : Call) (result : Value) (native : Bool) :
    Within (Follows Keeps) (callPostBody c result native) := by
  have spread {α : Type} {x : HookM α} (h : Within (Follows Spreads) x) :
      Within (Follows Keeps) x := h.mono fun _ _ h => h.mono fun _ _ h => h.toKeeps
  exact within_callPostBody c result native (spread (follows_launderSinks c result))
    (fun _ => HookM.follows_onMemory (keeps_closeCall _ _ _))
    (fun _ _ _ => spread (HookM.follows_onMemory (.lift (spreads_propagateCall _ _ _))))
    fun _ _ => spread (follows_tagImport _ _)

end Bodies

section Entering

theorem keeps_setCallType (callType : CallType) :
    Within Keeps (MemoryM.modifyShadow (·.setCallType callType)) :=
  fun m => (refl_of Keeps m).withShadow (fun _ _ h => h) (Nat.le_refl _) fun _ bounded =>
    ShadowState.bounded_withFrame bounded fun id mention => bounded id (.inr (.inr (.inl mention)))

theorem keeps_enterFunctionBody (f : Value) : Within Keeps (enterFunctionBody f) := by
  refine .bind_except .get_except fun m => ?_
  dsimp only
  split
  · exact .bind_except (.lift (keeps_setCallType _)) fun _ => CheckedM.keeps_expectIdle _
  · exact .bind_except (.lift (MemoryM.keeps_saveFrame _ _)) fun _ => CheckedM.keeps_expectIdle _

theorem keeps_exitFunctionBody (threw : Bool) : Within Keeps (exitFunctionBody threw) := by
  intro m
  unfold exitFunctionBody
  cases threw with
  | true =>
    rw [if_pos rfl]
    have reset : m.Keeps { m with shadow := m.shadow.resetFrame } :=
      (refl_of Keeps m).withShadow (fun _ _ h => h) (Nat.le_refl _) fun _ bounded =>
        ShadowState.bounded_withFrame bounded fun id mention => by
          rcases mention with reserved | ⟨_, _, mention, _⟩
          · exact nomatch reserved
          · exact nomatch mention
    rw [lift_bind_apply]
    exact trans_of Keeps reset (CheckedM.within_checkPending _ _ _)
  | false =>
    rw [if_neg (by decide), get_bind_apply]
    split
    · rcases ShadowState.restoreFrame_cases m.shadow functionEntrySite with
        ⟨frame, rest, saved, found, -, -⟩ | failed
      · obtain ⟨s, restored, -, keeps, -⟩ := restoreFrame_ok found
        rw [restored]
        exact keeps
      · rw [failed]
        exact refl_of Keeps m
    · exact refl_of Keeps m

/-- A function that is entered in the middle of an operation gets a frame of its own, on top of the
frame of the operation. -/
theorem enterFunctionBody_of_pending {m : Memory} (unset : m.shadow.context = .unset)
    (pending : m.shadow.frame.reserved ≠ []) (f : Value) :
    ∃ m', enterFunctionBody f m = (.ok (), m') ∧ m'.shadow.frame.reserved = [] ∧
      m'.shadow.frame.callSite = functionEntrySite ∧
      ∀ site, m'.shadow.framesAt site = if functionEntrySite = site
        then m.shadow.frame :: m.shadow.framesAt functionEntrySite else m.shadow.framesAt site := by
  have count : ¬ m.shadow.pendingCount = 0 := fun empty =>
    pending (List.length_eq_zero_iff.mp empty)
  obtain ⟨m', idle, stacked, -⟩ := CheckedM.expectIdle_ok
    (m := (MemoryM.modifyShadow (·.saveFrame (entryType m f) functionEntrySite) m).2)
    (.inl ⟨unset, rfl⟩) "WFunctionEnter"
  refine ⟨m', ?_, stacked.reserved, by rw [stacked.frame]; rfl, fun site => ?_⟩
  · unfold enterFunctionBody
    rw [get_bind_apply]
    dsimp only
    rw [if_neg count, lift_bind_apply]
    exact idle
  · rw [ShadowState.framesAt_of_saved stacked.saved]
    exact ShadowState.framesAt_saveFrame m.shadow _ _ site

/-- A function that is entered where nothing is reserved runs in the frame that is current. -/
theorem enterFunctionBody_of_idle {m : Memory} (unset : m.shadow.context = .unset)
    (idle : m.shadow.frame.reserved = []) (f : Value) :
    ∃ m', enterFunctionBody f m = (.ok (), m') ∧ m'.shadow.frame.reserved = [] ∧
      m'.shadow.frame.callSite = m.shadow.frame.callSite ∧
      m'.shadow.saved = m.shadow.saved := by
  have count : m.shadow.pendingCount = 0 := by rw [ShadowState.pendingCount, idle]; rfl
  obtain ⟨m', run, stacked, -⟩ := CheckedM.expectIdle_ok
    (m := (MemoryM.modifyShadow (·.setCallType (entryType m f)) m).2)
    (.inl ⟨unset, idle⟩) "WFunctionEnter"
  refine ⟨m', ?_, stacked.reserved, by rw [stacked.frame]; rfl, stacked.saved⟩
  unfold enterFunctionBody
  rw [get_bind_apply]
  dsimp only
  rw [if_pos count, lift_bind_apply]
  exact run

/-- Leaving a function that got a frame of its own goes back to the frame below. -/
theorem exitFunctionBody_of_entry {m : Memory} {caller : Frame} {rest : List Frame}
    (entered : m.shadow.frame.callSite = functionEntrySite)
    (saved : m.shadow.framesAt functionEntrySite = caller :: rest) :
    ∃ m', exitFunctionBody false m = (.ok (), m') ∧ m'.shadow.frame = caller ∧
      ∀ site, m'.shadow.framesAt site =
        if functionEntrySite = site then rest else m.shadow.framesAt site := by
  obtain ⟨s, restored, frame, -, frames⟩ := restoreFrame_ok saved
  refine ⟨{ m with shadow := s }, ?_, frame, frames⟩
  unfold exitFunctionBody
  rw [if_neg (by decide), get_bind_apply]
  rw [if_pos entered, restored]
  rfl

/-- Leaving any other function changes nothing. -/
theorem exitFunctionBody_of_call {m : Memory} (called : m.shadow.frame.callSite ≠ functionEntrySite) :
    exitFunctionBody false m = (.ok (), m) := by
  unfold exitFunctionBody
  rw [if_neg (by decide), get_bind_apply]
  rw [if_neg called]
  rfl

end Entering

end Tracker

end ShadowTaint
