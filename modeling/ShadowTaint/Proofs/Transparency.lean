import ShadowTaint.Proofs.Contents
import ShadowTaint.Proofs.Discipline
import ShadowTaint.Proofs.Persistence
import ShadowTaint.Proofs.Returning
/-!
# What an external call leaves of its arguments

An external call whose callee leaves the heap alone should not be seen in its arguments. Objects among
them stay, and shadows come back with their literals. That their identities come back as well is true
only as long as no two arguments reach the same property: the first walk takes the shadow off, the second
one gives out a new identity for the bare literal, and it is the later one that is put back. The taint
that is recorded under the old identity is lost.

## Main definitions

- `Tracker.Strips`: the arguments of a call lose their shadows.

## Main statements

- `Tracker.call_restores`: what becomes of the properties of arguments, and when identities stay.
- `Session.passedTwice_loses_taint`: what an object holds that is passed twice is not tainted any more.
-/

namespace ShadowTaint

open Memory Tracker

namespace Memory

/-- The memory grew, and the heap and the kind of code that runs are the same. -/
structure Readies (m m' : Memory) : Prop extends Grows m m' where
  heap : m'.heap = m.heap
  callType : m'.shadow.frame.callType = m.shadow.frame.callType

variable {m m' m'' : Memory}

theorem Readies.trans (first : m.Readies m') (second : m'.Readies m'') : m.Readies m'' where
  toGrows := first.toGrows.trans second.toGrows
  heap := second.heap.trans first.heap
  callType := second.callType.trans first.callType

theorem Readies.alike (h : m.Readies m') : m.heap.Alike m'.heap := by
  rw [h.heap]
  exact .refl _

theorem Marks.readies (h : m.Marks m') : m.Readies m' where
  toGrows := h.spreads.toGrows
  heap := h.heap
  callType := by rw [h.frame]

theorem Stacks.readies {ids : List Identity} (h : m.Stacks ids m') (heap : m'.heap = m.heap) :
    m.Readies m' where
  toGrows := h.toGrows
  heap := heap
  callType := h.callType

theorem readies_unwrap (v : Value) (m : Memory) : m.Readies (MemoryM.unwrap v m).2 := by
  obtain ⟨id, -, stacked⟩ := MemoryM.stacks_unwrap v m
  exact stacked.readies (MemoryM.issues_unwrap v m).heap

theorem spares_ended (m : Memory) : m.Spares m.ended := ⟨m.keeps_ended.toGrows, fun _ => rfl⟩

/-- What becomes of a property does not depend on when the arguments were prepared. -/
theorem Readies.restores (h : m.Readies m') {x : ObjectId} {key : String} {same : Prop}
    (restores : m'.Restores m'' x key same) : m.Restores m'' x key same where
  object y named := restores.object y (by rw [h.heap, named])
  shadow v own raw named known := restores.shadow v own raw (by rw [h.heap, named]) (h.lookup? known)

theorem Readies.apart (h : m.Readies m') {f : Value} {args : List Value} {x : ObjectId} {key : String}
    (here : m.heap.IsPlain x) : m'.Apart f args x key ↔ m.Apart f args x key := by
  unfold Apart
  refine List.Pairwise.iff fun a b => ?_
  rw [h.heap, PutsBack.congr h.alike here (by rw [h.heap])]

/-- The identity that is reserved for a value: its own, if the value is a known shadow, and else one that
was never handed out. -/
structure Reserves (m : Memory) (v : Value) (id : Identity) : Prop where
  known : ∀ own raw, m.shadow.lookup? v = some (own, raw) → id = own
  fresh : m.shadow.lookup? v = none → m.shadow.nextIdentity ≤ id.index

theorem Reserves.mono {v : Value} {id : Identity} (h : m'.Reserves v id) (handles : m.SameHandles m')
    (grows : m.Grows m') : m.Reserves v id where
  known own raw found := h.known own raw ((lookup?_of_wraps handles v).trans found)
  fresh missing := Nat.le_trans grows.minted (h.fresh ((lookup?_of_wraps handles v).trans missing))

theorem reserves_identityOf (v : Value) (m : Memory) : m.Reserves v (MemoryM.identityOf v m).1 := by
  rcases MemoryM.identityOf_cases v m with ⟨id, raw, found, run⟩ | ⟨missing, run⟩
  · refine ⟨fun own raw' known => ?_, fun missing => ?_⟩
    · rw [found] at known
      cases known
      rw [run]
    · rw [found] at missing
      cases missing
  · refine ⟨fun own raw known => ?_, fun _ => ?_⟩
    · rw [missing] at known
      cases known
    · rw [run]
      exact Nat.le_refl _

theorem reserves_unwrap (v : Value) (m : Memory) : ∃ id, m.Reserves v id ∧
    (MemoryM.unwrap v m).2.shadow.frame.reserved = id :: m.shadow.frame.reserved := by
  refine ⟨(MemoryM.identityOf v m).1, reserves_identityOf v m, ?_⟩
  have frame := (MemoryM.spreads_identityOf v m).frame
  show (MemoryM.identityOf v m).1 :: (MemoryM.identityOf v m).2.shadow.frame.reserved = _
  rw [frame]

/-- The hook before a call is ready for the arguments. If a method is called, the identities of the method
and of its receiver are reserved. -/
structure Prepares (m : Memory) (c : Call) (m' : Memory) : Prop extends Readies m m' where
  reserved : c.method = true → ∃ idf idb, m.Reserves c.base idb ∧
    m'.shadow.frame.reserved = [idb, idf]

theorem Marks.prepares {c : Call} (first : m.Marks m') (second : m'.Prepares c m'') : m.Prepares c m'' where
  toReadies := first.readies.trans second.toReadies
  reserved method := by
    obtain ⟨idf, idb, reserves, reserved⟩ := second.reserved method
    exact ⟨idf, idb, reserves.mono first.wraps first.spreads.toGrows, reserved⟩

/-- The arguments of an external call were prepared in `m₁`, which left `m₂`, and the frame of `m₂` was
saved for the call. -/
structure HandsOver (levels : Levels) (c q : Call) (m₁ m₂ m' : Memory) : Prop where
  prepared : MemoryM.prepareArguments (levels.policyFor m₁.heap q.base) c.f c.args m₁ = (q.args, m₂)
  grows : m₂.Grows m'
  heap : m'.heap = m₂.heap
  frames : ∃ below, m'.shadow.framesAt c.site = m₂.shadow.frame :: below
  function : q.f.object? = c.f.object?
  receiver : q.base.object? = c.base.object?
  stripped : c.method = true → q.base = m₁.valueOf c.base
  outside : q.external = true
  site : q.site = c.site

end Memory

theorem MemoryM.valueOf_unwrap (v : Value) (m : Memory) : (unwrap v m).2.valueOf v = m.valueOf v := by
  have reserved : (unwrap v m).2.shadow.wraps = (identityOf v m).2.shadow.wraps := rfl
  refine valueOf_of_wraps (reserved.trans ?_) v
  rcases identityOf_cases v m with ⟨_, _, -, run⟩ | ⟨-, run⟩
  · rw [run]
  · rw [run]
    rfl

namespace Tracker

section Opening

variable {c q : Call} {native : Bool} {levels : Levels} {m m' : Memory}

theorem handsOver_saveFrame {m₁ m₂ : Memory} {f base : Value} {args : List Value}
    (outside : c.external = true)
    (prepared : MemoryM.prepareArguments (levels.policyFor m₁.heap base) c.f c.args m₁ = (args, m₂))
    (function : f.object? = c.f.object?) (receiver : base.object? = c.base.object?)
    (stripped : c.method = true → base = m₁.valueOf c.base) :
    HandsOver levels c { c with f, base, args } m₁ m₂
      (MemoryM.modifyShadow (·.saveFrame (.ofCall true native) c.site) m₂).2 where
  prepared := prepared
  grows := (MemoryM.keeps_saveFrame _ _ m₂).toGrows
  heap := rfl
  frames := ⟨_, (ShadowState.framesAt_saveFrame m₂.shadow _ c.site c.site).trans (if_pos rfl)⟩
  function := function
  receiver := receiver
  stripped := stripped
  outside := outside
  site := rfl

/-- At rest the frame of an external call is opened when the arguments are prepared. -/
theorem openCall_handsOver (rest : m.shadow.AtRest) (outside : c.external = true)
    (opened : openCall c native levels m = (.ok q, m')) :
    ∃ m₁ m₂, m.Prepares c m₁ ∧ HandsOver levels c q m₁ m₂ m' := by
  obtain ⟨m₁, idle, dropped, heap⟩ := CheckedM.expectIdle_ok rest "WInvokeFunPre"
  have readied : m.Readies (MemoryM.unwrap c.f m₁).2 :=
    (dropped.readies heap).trans (readies_unwrap c.f m₁)
  unfold openCall at opened
  rw [bind_apply_ok idle, lift_bind_apply, if_neg (by rw [outside]; decide)] at opened
  rcases Bool.eq_false_or_eq_true c.method with method | plain
  · rw [if_pos method, lift_bind_apply] at opened
    cases opened
    have idling : m.SameHandles m₁ := by
      have checked := admitsStripping_sameHandles.expectIdle "WInvokeFunPre" m
      rwa [idle] at checked
    obtain ⟨idf, -, reserved⟩ := reserves_unwrap c.f m₁
    obtain ⟨idb, reserves, reserved'⟩ := reserves_unwrap c.base (MemoryM.unwrap c.f m₁).2
    rw [reserved, dropped.reserved] at reserved'
    have handles := trans_of SameHandles idling (admitsStripping_sameHandles.unwrap c.f m₁)
    exact ⟨_, _, ⟨readied.trans (readies_unwrap c.base _), fun _ =>
        ⟨idf, idb, reserves.mono handles readied.toGrows, reserved'⟩⟩,
      handsOver_saveFrame outside rfl (m₁.objectOf?_eq c.f) (Memory.objectOf?_eq _ c.base)
        fun _ => (MemoryM.valueOf_unwrap c.base _).symm⟩
  · rw [if_neg (by rw [plain]; decide)] at opened
    cases opened
    have never (method : c.method = true) : False := by
      rw [plain] at method
      cases method
    exact ⟨_, _, ⟨readied, fun method => (never method).elim⟩,
      handsOver_saveFrame outside rfl (m₁.objectOf?_eq c.f) rfl fun method => (never method).elim⟩

/-- What the hook before an external call hands over, and what it leaves for the hook after it. -/
theorem callPre_handsOver {t t₁ : Tracker} (rest : t.memory.shadow.AtRest)
    (real : t.ghostOf? c = none) (outside : t.memory.isExternalCall c = true)
    (before : callPre c t = (.ok q, t₁)) :
    ∃ m₁ m₂, t.memory.Prepares c m₁ ∧ HandsOver t.settings.policies c q m₁ m₂ t₁.memory := by
  obtain ⟨t₀, t', logs, run, ended⟩ := callPre_run t c
  rw [before] at run
  obtain ⟨returned, rfl⟩ := Prod.mk.inj run
  rcases checkCall_passes (t.placed c) t₀ with ⟨t₂, passed, marks⟩ | ⟨f, t₂, refused, -⟩
  · have real₂ : t₂.ghostOf? (t.placed c) = none := by
      rw [ghostOf?_of_marks marks, ghostOf?, logs.ghosts, logs.memory]
      exact real
    have body : callPreBody (t.placed c) (t.memory.isNativeCall (t.placed c)) t₀ =
        HookM.onMemory (openCall (t.placed c) (t.memory.isNativeCall (t.placed c))
          t.settings.policies) t₂ := by
      rw [callPreBody_of_real passed real₂, marks.settings, logs.settings]
    have marked : t.memory.Marks t₂.memory := by
      rw [← logs.memory]
      exact marks.memory
    have rest₂ : t₂.memory.shadow.AtRest := by
      unfold ShadowState.AtRest
      rw [marked.context, marked.frame]
      exact rest
    rcases opened : openCall (t.placed c) (t.memory.isNativeCall (t.placed c)) t.settings.policies
      t₂.memory with ⟨returned', m'⟩
    rw [body, HookM.onMemory_apply, opened] at returned ended
    subst returned
    obtain ⟨m₁, m₂, prepares, handed⟩ := openCall_handsOver rest₂ outside opened
    have memory : t₁.memory = m'.ended := ended.memory
    refine ⟨m₁, m₂, ⟨(marked.prepares prepares).toReadies, (marked.prepares prepares).reserved⟩, ?_⟩
    rw [memory]
    exact ⟨handed.prepared, handed.grows.trans (Memory.keeps_ended m').toGrows, handed.heap, handed.frames,
      handed.function, handed.receiver, handed.stripped, handed.outside, handed.site⟩
  · rw [callPreBody_of_refused refused] at returned
    cases returned

/-- The hook before a call of a ghost function leaves the heap alone. -/
theorem callPre_of_ghost {t t₁ : Tracker} (rest : t.memory.shadow.AtRest) {ghost : Ghost}
    (called : t.ghostOf? c = some ghost) (before : callPre c t = (.ok q, t₁)) :
    q = t.placed c ∧ t₁.memory.heap = t.memory.heap := by
  obtain ⟨t₀, t', logs, run, ended⟩ := callPre_run t c
  rw [before] at run
  obtain ⟨returned, rfl⟩ := Prod.mk.inj run
  have called₀ : t₀.ghostOf? (t.placed c) = some ghost := by
    rw [ghostOf?, logs.ghosts, logs.memory]
    exact called
  rcases callPreBody_of_ghost (by rwa [logs.memory]) (t.placed c)
    (t.memory.isNativeCall (t.placed c)) called₀ with ⟨t₂, body, -, -, -, heap⟩ | ⟨e, t₂, body, -⟩
  · rw [body] at returned ended
    cases returned
    have memory : t₁.memory = t₂.memory.ended := ended.memory
    refine ⟨rfl, ?_⟩
    rw [memory, ← logs.memory]
    exact heap
  · rw [body] at returned
    cases returned

end Opening

section Closing

variable {q : Call} {native : Bool} {levels : Levels} {caller : Frame} {below : List Frame}

/-- When the frame of the caller is back, the arguments get their shadows, and nothing that happens
afterwards touches a property. -/
theorem closeCall_spares {m : Memory} (outside : q.external = true)
    (saved : m.shadow.framesAt q.site = caller :: below) (result : Value) :
    ∃ m₃, m₃.heap = m.heap ∧ m₃.shadow.frame = caller ∧ m.Grows m₃ ∧
      (MemoryM.restoreArguments levels (m₃.policyOf levels q.base) q.f q.args m₃).2.Spares
        (closeCall q result levels m).2 := by
  obtain ⟨s, restored, frame, keeps, -⟩ := restoreFrame_ok saved
  refine ⟨{ m with shadow := s }, rfl, frame, keeps.toGrows, ?_⟩
  rw [closeCall_of_restored restored]
  exact restoreArguments_rewrapCall (MemoryM.spares_wrap levels) outside result

/-- What the hook after an external call does to properties is to put the shadows of arguments back. -/
theorem callPostBody_spares {t : Tracker} (real : t.ghostOf? q = none) (outside : q.external = true)
    (saved : t.memory.shadow.framesAt q.site = caller :: below) (result : Value) (native : Bool) :
    ∃ m₃, m₃.heap = t.memory.heap ∧ m₃.shadow.frame = caller ∧ t.memory.Grows m₃ ∧
      (MemoryM.restoreArguments t.settings.policies (m₃.policyOf t.settings.policies q.base) q.f
        q.args m₃).2.Spares (callPostBody q result native t).2.memory := by
  obtain ⟨t₁, run₁, f₁⟩ := succeeds_if (R := Follows Eq) (follows_launderSinks q result)
    (raises_launderSinks q result) ((q.external || t.settings.aggressiveSinkPropagation) = true) t
  have same : t.memory = t₁.memory := f₁.memory
  have saved₁ : t₁.memory.shadow.framesAt q.site = caller :: below := by rw [← same, saved]
  obtain ⟨m₃, heap, frame, grows, spares⟩ :=
    @closeCall_spares q t.settings.policies caller below _ outside saved₁ result
  refine ⟨m₃, by rw [heap, same], frame, by rwa [same], ?_⟩
  have rest := within_concludeCall (R := Follows Spares)
    (fun _ _ _ => HookM.follows_onMemory (.lift (spares_propagateCall _ _ _))) spares_tagImport q native t
  rw [callPostBody_eq, get_bind_apply, real]
  dsimp only
  rw [if_neg (by decide), if_bind_apply run₁]
  rcases closed : closeCall q result t.settings.policies t₁.memory with ⟨e | r, m'⟩ <;>
    rw [closed] at spares
  · rw [bind_apply_error (by rw [HookM.onMemory_apply, closed])]
    exact spares
  · rw [bind_apply_ok (by rw [HookM.onMemory_apply, closed])]
    exact trans_of Spares spares (rest r { t₁ with memory := m' }).memory

theorem callPost_spares {t t' : Tracker} {r : Except Fault (Call × Value)} (real : t.ghostOf? q = none)
    (outside : q.external = true) (saved : t.memory.shadow.framesAt q.site = caller :: below)
    {result : Value} (after : callPost q result t = (r, t')) :
    ∃ m₃, m₃.heap = t.memory.heap ∧ m₃.shadow.frame = caller ∧ t.memory.Grows m₃ ∧
      (MemoryM.restoreArguments t.settings.policies (m₃.policyOf t.settings.policies q.base) q.f
        q.args m₃).2.Spares t'.memory := by
  obtain ⟨t₀, t₁, logs, run, memory⟩ := callPost_run q result t
  rw [after] at run
  obtain ⟨-, rfl⟩ := Prod.mk.inj run
  have real₀ : t₀.ghostOf? q = none := by
    rw [ghostOf?, logs.ghosts, logs.memory]
    exact real
  have saved₀ : t₀.memory.shadow.framesAt q.site = caller :: below := by rw [logs.memory, saved]
  obtain ⟨m₃, heap, frame, grows, spares⟩ :=
    callPostBody_spares real₀ outside saved₀ result (t.memory.isNativeCall q)
  rw [logs.memory] at heap grows
  rw [logs.settings] at spares
  refine ⟨m₃, heap, frame, grows, ?_⟩
  rw [memory]
  exact trans_of Spares spares (Memory.spares_ended _)

end Closing

section Inside

/-- Between the hooks of a call no frame is left on top of the one that was saved for it. -/
theorem framesAt_inside {bodies : Bool} {t t' : Tracker} (inside : Runs (.inside bodies) t none t')
    (ready : bodies = true → Phase.Ready t.memory (.inside true)) (site : CallSite) :
    t'.memory.shadow.framesAt site = t.memory.shadow.framesAt site := by
  cases bodies with
  | true => exact Memory.Resumes.frames (inside.outcome (ready rfl)) site
  | false =>
    have same : t'.memory.shadow = t.memory.shadow := inside.outcome trivial
    rw [same]

/-- After the hook before a call a function body can be entered. -/
theorem ready_inside {bodies : Bool} {t t₁ : Tracker} {c q : Call} (rest : t.memory.shadow.AtRest)
    (real : t.ghostOf? c = none) (regular : bodies = true → c.site ≠ functionEntrySite)
    (before : callPre c t = (.ok q, t₁)) (enters : bodies = true) :
    Phase.Ready t₁.memory (.inside true) := by
  have first : (Paired.call c).before t = (.ok (.call q), t₁) := by
    rw [Paired.before, bind_apply_ok before]
    rfl
  have ready := (Paired.hands_of_before rest first).ready (regular enters)
  rwa [Paired.entersBodies, real] at ready

theorem ghostOf?_congr {t t' : Tracker} (ghosts : t'.ghosts = t.ghosts)
    (alike : t.memory.heap.Alike t'.memory.heap) {c c' : Call}
    (function : c'.f.object? = c.f.object?) : t'.ghostOf? c' = t.ghostOf? c := by
  have object : (t'.memory.valueOf c'.f).object? = (t.memory.valueOf c.f).object? := by
    rw [← objectOf?, ← objectOf?, objectOf?_eq, objectOf?_eq, function]
  simp only [ghostOf?, ghosts, Ghosts.find?, Heap.function?, object, alike.kind]

end Inside

/-- The arguments of a call lose the shadows of everything that they reach: the function is no ghost
function, and the receiver is none that gets its arguments as they are. -/
def Strips (t : Tracker) (c : Call) : Prop :=
  t.ghostOf? c = none ∧
    (t.memory.policyOf t.settings.policies c.base).passing t.memory c.f c.args = .stripped

/-- Nothing is taken off the arguments of a ghost function. -/
theorem restores_of_ghost {t t₁ t₂ t₃ : Tracker} {c q : Call} {r : Call × Value} {result : Value}
    {x : ObjectId} {key : String} {ghost : Ghost} (rest : t.memory.shadow.AtRest)
    (called : t.ghostOf? c = some ghost) (before : callPre c t = (.ok q, t₁))
    (grown : Follows Grows t t₂) (untouched : t₂.memory.heap = t₁.memory.heap)
    (after : callPost q result t₂ = (.ok r, t₃)) :
    t.memory.Restores t₃.memory x key (t.Strips c → t.memory.Apart c.f c.args x key) := by
  obtain ⟨rfl, heap₁⟩ := callPre_of_ghost rest called before
  obtain ⟨t₀, t', logs, run, memory⟩ := callPost_run (t.placed c) result t₂
  rw [after] at run
  obtain ⟨-, rfl⟩ := Prod.mk.inj run
  have called₀ : t₀.ghostOf? (t.placed c) = some ghost := by
    have later := ghostOf?_of_follows grown called
    rw [ghostOf?, logs.ghosts, logs.memory]
    exact later
  rw [callPostBody_of_ghost called₀, logs.memory] at memory
  have heap : t₃.memory.heap = t.memory.heap := by
    rw [memory]
    exact untouched.trans heap₁
  have grows : t.memory.Grows t₃.memory := by
    rw [memory]
    exact grown.memory.trans (Memory.keeps_ended _).toGrows
  refine MemoryM.restores_of_same heap grows (.refl _) fun strips => ?_
  rw [strips.1] at called
  cases called

section Called

variable {t t₁ t₂ t₃ : Tracker} {c q : Call} {r : Call × Value} {result : Value} {bodies : Bool}
  {x : ObjectId} {key : String}

/-- The arguments of any other function are passed and restored in the same way. -/
theorem restores_of_none (bounded : t.memory.shadow.Bounded) (rest : t.memory.shadow.AtRest)
    (wraps : t.memory.shadow.frame.callType.skipsWrapping = false)
    (outside : t.memory.isExternalCall c = true) (real : t.ghostOf? c = none)
    (plain : ∀ arg ∈ c.args, t.memory.heap.PlainBelow arg) (here : t.memory.heap.IsPlain x)
    (before : callPre c t = (.ok q, t₁)) (inside : Runs (.inside bodies) t₁ none t₂)
    (regular : bodies = true → c.site ≠ functionEntrySite) (grown : Follows Grows t t₂)
    (untouched : t₂.memory.heap = t₁.memory.heap) (after : callPost q result t₂ = (.ok r, t₃)) :
    t.memory.Restores t₃.memory x key (t.Strips c → t.memory.Apart c.f c.args x key) := by
  obtain ⟨m₁, m₂, readies, handed⟩ := callPre_handsOver rest real outside before
  have plain₁ : ∀ arg ∈ c.args, m₁.heap.PlainBelow arg := by rwa [readies.heap]
  have alike : m₁.heap.Alike m₂.heap := MemoryM.alike_prepareArguments plain₁ handed.prepared
  have heap₂ : t₂.memory.heap = m₂.heap := untouched.trans handed.heap
  -- the hook after the call finds the frame and takes the branch of the hook before it
  have real₂ : t₂.ghostOf? q = none := by
    rw [ghostOf?_congr grown.ghosts (by rw [heap₂]; exact readies.alike.trans alike) handed.function,
      real]
  obtain ⟨below, frames⟩ := handed.frames
  have saved : t₂.memory.shadow.framesAt q.site = m₂.shadow.frame :: below := by
    rw [framesAt_inside inside (ready_inside rest real regular before), handed.site, frames]
  obtain ⟨m₃, heap₃, frame₃, grows₃, spares⟩ := callPost_spares real₂ handed.outside saved after
  rw [grown.settings] at spares
  have alike₃ : m₁.heap.Alike m₃.heap := by rwa [heap₃, heap₂]
  obtain ⟨_, _, -, keeps, -⟩ := MemoryM.stacks_prepareArguments
    (t.settings.policies.policyFor m₁.heap q.base) c.f c.args m₁
  rw [handed.prepared] at keeps
  have grows : m₁.Grows m₃ :=
    (keeps.toGrows.trans handed.grows).trans (inside.follows.memory.trans grows₃)
  -- both hooks pass the arguments in the same way
  have closes : (m₃.policyOf t.settings.policies q.base).passing m₃ q.f q.args =
      (t.settings.policies.policyFor m₁.heap q.base).passing m₁ c.f c.args :=
    t.settings.policies.passing_congr alike₃ (m₃.objectOf?_eq q.base) handed.function
      (MemoryM.prepareArguments_cases plain₁ handed.prepared).1
  have opens : (t.settings.policies.policyFor m₁.heap q.base).passing m₁ c.f c.args =
      (t.memory.policyOf t.settings.policies c.base).passing t.memory c.f c.args :=
    t.settings.policies.passing_congr readies.alike
      (handed.receiver.trans (t.memory.objectOf?_eq c.base).symm) rfl rfl
  have restores : m₁.Restores _ x key _ :=
    MemoryM.restores_restoreArguments t.settings.policies plain₁ handed.prepared (heap₃.trans heap₂)
      frame₃ grows (readies.bounded bounded) (by rw [readies.callType, wraps]) closes
      (readies.alike.plain here)
  refine (readies.restores (restores.spared spares)).congr ?_
  rw [readies.apart here, opens]
  exact imp_congr_left (and_iff_right real).symm

/-- A successful external call, made at rest from code in which literals get shadows, whose arguments
reach plain objects only and whose callee leaves the heap as it is, leaves the objects that properties
hold, and brings known shadows back with their literals. It brings them back under their identities
exactly if it takes no shadows off, or if the walks over the arguments do not get in each other's way at
the property. -/
theorem call_restores (reachable : Reachable t) (rest : t.memory.shadow.AtRest)
    (caller : t.memory.shadow.frame.callType = .internal ∨ t.memory.shadow.frame.callType = .external)
    (outside : t.memory.isExternalCall c = true)
    (plain : ∀ arg ∈ c.args, t.memory.heap.PlainBelow arg) (here : t.memory.heap.IsPlain x)
    (before : callPre c t = (.ok q, t₁)) (inside : Runs (.inside bodies) t₁ none t₂)
    (regular : bodies = true → c.site ≠ functionEntrySite)
    (untouched : t₂.memory.heap = t₁.memory.heap) (after : callPost q result t₂ = (.ok r, t₃)) :
    t.memory.Restores t₃.memory x key (t.Strips c → t.memory.Apart c.f c.args x key) := by
  have opened : Follows Grows t t₁ := (Paired.call c).follows_before.of_apply
    (by rw [Paired.before, bind_apply_ok before]; rfl)
  have grown : Follows Grows t t₂ := trans_of (Follows Grows) opened inside.follows
  rcases real : t.ghostOf? c with _ | ghost
  · have wraps := CallType.skipsWrapping_eq_false_iff.mpr caller
    exact restores_of_none reachable.bounded rest wraps outside real plain here before inside regular
      grown untouched after
  · exact restores_of_ghost rest real before grown untouched after

end Called

end Tracker

namespace Session

/-- A plain object with a shadow under a name, a source of taint, and a native function that does
nothing. -/
def shadowInObject : Heap :=
  ⟨#[{ kind := .plain "Object", properties := .ofList [("k", .shadow ⟨0⟩ ⟨0⟩ (.string "s"))] },
    { kind := .function { name := "__jalangi_set_taint__" } },
    { kind := .function { name := "g", native := some (.host .nothing) } }]⟩

/-- The literal is tainted that a plain object holds under a name. -/
def taintedProperty : List Event :=
  [.hook (.literal (.string "s")), .host shadowInObject,
    .hook (.callPre
      { f := .object 1, base := .undefined, site := 1
        args := [.shadow ⟨0⟩ ⟨0⟩ (.string "s")] })]

/-- The tracker when that is done. -/
def afterTainting : Tracker := (run (start {} ⟨#[]⟩) taintedProperty).tracker

/-- The native function is called with some arguments. -/
def passing (args : List Value) : Call := { f := .object 2, base := .undefined, args, site := 2 }

/-- A call whose callee returns nothing and leaves the heap alone. -/
def callIdly (c : Call) : HookM (Call × Value) := do callPost (← callPre c) .undefined

/-- The identity of the known shadow that an object has under a name. -/
def identity? (m : Memory) (x : ObjectId) (key : String) : Option Identity :=
  (m.heap.named? x key).bind fun v => (m.shadow.lookup? v).map (·.1)

theorem exists_of_isOk {α : Type} {x : HookM α} {t : Tracker} (ok : (x t).1.isOk = true) :
    ∃ a t', x t = (.ok a, t') := by
  rcases run : x t with ⟨e | a, t'⟩
  · rw [run] at ok
    cases ok
  · exact ⟨a, t', rfl⟩

theorem shadowInObject_link? (key : String) : shadowInObject.link? 0 key = none := by
  show (Table.find key [("k", Value.shadow ⟨0⟩ ⟨0⟩ (.string "s"))]).bind Value.object? = none
  rw [Table.find]
  split <;> rfl

theorem plainBelow_shadowInObject : shadowInObject.PlainBelow (.object 0) := by
  intro id object x reaches
  cases object
  have same : x = 0 := by
    induction reaches with
    | self => rfl
    | step _ _ link ih =>
      rw [ih, shadowInObject_link?] at link
      cases link
  rw [same]
  exact ⟨by decide, "Object", rfl⟩

theorem reachable_afterTainting : Reachable afterTainting :=
  reachable_run (.start {} ⟨#[]⟩) taintedProperty

/-- When the object is passed once, the shadow comes back under its identity. -/
theorem call_restores_once :
    Reachable afterTainting ∧ afterTainting.memory.shadow.AtRest ∧
    afterTainting.memory.heap.PlainBelow (.object 0) ∧ ∃ q t₁ r t₃,
    callPre (passing [.object 0]) afterTainting = (.ok q, t₁) ∧
    callPost q .undefined t₁ = (.ok r, t₃) ∧
    identity? afterTainting.memory 0 "k" = some ⟨0⟩ ∧ identity? t₃.memory 0 "k" = some ⟨0⟩ := by
  have rest : afterTainting.memory.shadow.AtRest := .inl (by decide +kernel)
  obtain ⟨r, t₃, ran⟩ : ∃ r t₃, callIdly (passing [.object 0]) afterTainting = (.ok r, t₃) :=
    exists_of_isOk (by decide +kernel)
  obtain ⟨q, t₁, before, after⟩ := bind_eq_ok.mp ran
  have plain : ∀ arg ∈ [Value.object 0], afterTainting.memory.heap.PlainBelow arg := by
    intro arg mem
    rw [List.mem_singleton.mp mem]
    exact plainBelow_shadowInObject
  have inside : Runs (.inside false) t₁ none t₁ := .nothing t₁
  have restores : afterTainting.memory.Restores t₃.memory 0 "k" _ :=
    call_restores reachable_afterTainting rest (.inl (by decide +kernel)) (by decide +kernel) plain
      ⟨by decide +kernel, "Object", rfl⟩ before inside nofun rfl after
  obtain ⟨w, id, named, known, same⟩ := restores.shadow (.shadow ⟨0⟩ ⟨0⟩ (.string "s")) ⟨0⟩
    (.string "s") rfl rfl
  rw [same.mpr fun _ => List.pairwise_singleton _ _] at known
  refine ⟨reachable_afterTainting, rest, plainBelow_shadowInObject, q, t₁, r, t₃, before, after,
    by decide +kernel, ?_⟩
  rw [identity?, named, Option.bind_some, known]
  rfl

/-- When it is passed twice, the property has a shadow with another identity afterwards, and the taint
of what the object holds is lost. -/
theorem passedTwice_loses_taint :
    Reachable afterTainting ∧ afterTainting.memory.shadow.AtRest ∧
    afterTainting.memory.shadow.frame.callType = .internal ∧
    afterTainting.memory.isExternalCall (passing [.object 0, .object 0]) = true ∧
    afterTainting.memory.heap.PlainBelow (.object 0) ∧
    (callIdly (passing [.object 0, .object 0]) afterTainting).1.isOk = true ∧
    identity? afterTainting.memory 0 "k" = some ⟨0⟩ ∧
    identity? (callIdly (passing [.object 0, .object 0]) afterTainting).2.memory 0 "k" = some ⟨3⟩ ∧
    afterTainting.memory.anyProps (.object 0) = true ∧
    (callIdly (passing [.object 0, .object 0]) afterTainting).2.memory.anyProps (.object 0) =
      false := by
  refine ⟨reachable_afterTainting, .inl ?_, ?_, ?_, plainBelow_shadowInObject, ?_⟩ <;>
    decide +kernel

end Session

end ShadowTaint
