import ShadowTaint.Proofs.Runs
/-!
# The discipline of the stack

Every complete operation that starts at rest ends at rest, in the frame and with the saved frames of
before, whatever runs inside it. If it ends early, then with a finding or with a fault of a ghost
function, and never because the hooks lost count of what is reserved.

## Main definitions

- `Memory.SameFrames`, `Memory.InPlace`: the same frames are saved, and the current one is of the same
  call.
- `Tracker.Hands`: what the hook before an operation leaves to the hook after it.
- `Paired.Closes`: what the hook after an operation has done.
- `Phase.Ready`, `Phase.Complete`: what a part of a run needs, and what it guarantees.

## Main statements

- `Paired.before_cases`, `Tracker.Hands.after_cases`: the two hooks of an operation.
- `Paired.hands_of_before`, `Tracker.Hands.closes_of_after`: what they have done when they succeed.
- `Runs.ends_atRest`: a complete operation leads from rest to rest.

## Design notes

`Phase.Complete` is the invariant of the induction over runs. Between the hooks of an operation the
frame of the operation may not change as long as something is reserved in it; where nothing is, as at
the start of a call, the bodies that are entered share the frame, and only the frames below it stay.
-/

namespace ShadowTaint

open Memory Tracker

/-- The fault ends a run by design: it is a finding, or a ghost function asked for it. -/
def Fault.EndsRun (e : Fault) : Prop := (∃ f, e = .finding f) ∨ e.OfGhost

/-- The current frame is of the same call and runs the same kind of code, and the same frames are
saved under every call site. -/
structure Memory.SameFrames (m m' : Memory) : Prop where
  callType : m'.shadow.frame.callType = m.shadow.frame.callType
  callSite : m'.shadow.frame.callSite = m.shadow.frame.callSite
  frames : ∀ site, m'.shadow.framesAt site = m.shadow.framesAt site

instance : IsPreorder Memory SameFrames where
  refl _ := ⟨rfl, rfl, fun _ => rfl⟩
  trans _ _ _ first second := ⟨second.callType.trans first.callType,
    second.callSite.trans first.callSite, fun site => (second.frames site).trans (first.frames site)⟩

/-- The current frame is of the same call, and the same frames are saved under every call site. -/
structure Memory.InPlace (m m' : Memory) : Prop where
  callSite : m'.shadow.frame.callSite = m.shadow.frame.callSite
  frames : ∀ site, m'.shadow.framesAt site = m.shadow.framesAt site

theorem Memory.SameFrames.inPlace {m m' : Memory} (h : m.SameFrames m') : m.InPlace m' :=
  ⟨h.callSite, h.frames⟩

/-- When a hook has ended, the given identities are reserved, and nothing else about the frames is
different. -/
structure Memory.Leaves (ids : List Identity) (m m' : Memory) : Prop where
  frame : m'.shadow.frame = m.shadow.frame.withReserved ids
  saved : m'.shadow.saved = m.shadow.saved
  context : m'.shadow.context = .unset

theorem Memory.Stacks.leaves {ids : List Identity} {m m' : Memory} (h : m.Stacks ids m') :
    m.Leaves ids m'.ended :=
  ⟨h.frame, h.saved, rfl⟩

theorem Memory.Leaves.reserved {ids : List Identity} {m m' : Memory} (h : m.Leaves ids m') :
    m'.shadow.frame.reserved = ids := by
  rw [h.frame]
  rfl

theorem Memory.Leaves.sameFrames {ids : List Identity} {m m' : Memory} (h : m.Leaves ids m') :
    m.SameFrames m' where
  callType := by rw [h.frame]; rfl
  callSite := by rw [h.frame]; rfl
  frames := ShadowState.framesAt_of_saved h.saved

theorem Memory.Leaves.atRest {m m' : Memory} (h : m.Leaves [] m') : m'.shadow.AtRest :=
  .inl ⟨h.context, h.reserved⟩

section Plain

/-- Code that is evaluated goes through two hooks. Either may report a sink, and then no more of it runs. -/
theorem Plain.evaluate_cases {t : Tracker} (rest : t.memory.shadow.AtRest) (code : Value)
    (internal : Bool) :
    (∃ t', (Plain.evaluate code internal).run t = (.ok (), t') ∧ t'.memory.shadow.AtRest ∧
      t.memory.SameFrames t'.memory) ∨
      ∃ e t', (Plain.evaluate code internal).run t = (.error e, t') ∧ e.EndsRun := by
  have before (r : Except Fault String) (m' : Memory) := HookM.hook_of "instrument_code_pre"
    (fun t => [("code", t.render code), ("is_internal", if internal then "true" else "false")])
    (fun t => codePreBody code internal t.scope.sink t.settings.maxLength) (t := t)
    (fun _ logs => by rw [logs.scope, logs.settings]) (r := r) (m := m')
  rcases codePreBody_cases rest code internal t.scope.sink t.settings.maxLength with
    ⟨source, ids, m₁, run, stacked, short⟩ | ⟨f, m₁, run⟩
  · obtain ⟨t₁, hooked, memory, -⟩ := before _ _ run
    have leaves := stacked.leaves
    rw [← memory] at leaves
    have after (r : Except Fault String) (m' : Memory) := HookM.hook_of "instrument_code"
      (fun t => [("code", t.render (.string source))])
      (fun t => codePostBody source t.scope.sink t.settings.maxLength t.settings.policies)
      (t := t₁) (fun _ logs => by rw [logs.scope, logs.settings]) (r := r) (m := m')
    rcases codePostBody_cases t₁.settings.policies (by rw [leaves.reserved]; exact short) source
      t₁.scope.sink t₁.settings.maxLength with ⟨m₂, run₂, stacked₂⟩ | ⟨f, m₂, run₂⟩
    · obtain ⟨t₂, hooked₂, memory₂, -⟩ := after _ _ run₂
      have leaves₂ := stacked₂.leaves
      rw [← memory₂] at leaves₂
      refine .inl ⟨t₂, ?_, leaves₂.atRest,
        trans_of SameFrames leaves.sameFrames leaves₂.sameFrames⟩
      rw [Plain.run, codePre, bind_apply_ok hooked, codePost, bind_apply_ok hooked₂]
      rfl
    · obtain ⟨t₂, hooked₂, -⟩ := after _ _ run₂
      refine .inr ⟨_, t₂, ?_, .inl ⟨f, rfl⟩⟩
      rw [Plain.run, codePre, bind_apply_ok hooked, codePost, bind_apply_error hooked₂]
  · obtain ⟨t₁, hooked, -⟩ := before _ _ run
    exact .inr ⟨_, t₁, by rw [Plain.run, codePre, bind_apply_error hooked], .inl ⟨f, rfl⟩⟩

theorem Plain.cases {t : Tracker} (rest : t.memory.shadow.AtRest) (p : Plain) :
    (∃ t', p.run t = (.ok (), t') ∧ t'.memory.shadow.AtRest ∧ t.memory.SameFrames t'.memory) ∨
      ∃ e t', p.run t = (.error e, t') ∧ e.EndsRun := by
  cases p with
  | literal v =>
    obtain ⟨w, m', run, stacked⟩ := literalBody_ok t.settings.policies rest v
    obtain ⟨t', hooked, memory, -⟩ := HookM.memoryHook_of "literal"
      (fun t => [("value", t.render v)]) (literalBody v) run
    have leaves := stacked.leaves
    rw [← memory] at leaves
    exact .inl ⟨t', by rw [Plain.run, Tracker.literal, bind_apply_ok hooked]; rfl, leaves.atRest,
      leaves.sameFrames⟩
  | write target v =>
    obtain ⟨w, m', run, -, frame, saved⟩ :=
      writeBody_ok t.settings.policies rest v t.scope.isActive
    obtain ⟨t', hooked, memory, -⟩ := HookM.hook_of "write"
      (fun t => [("lhs", t.render target), ("value", t.render v)])
      (fun t => writeBody v t.scope.isActive t.settings.policies)
      (fun _ logs => by rw [logs.scope, logs.settings]) run
    have leaves : t.memory.Leaves [] m'.ended := ⟨frame, saved, rfl⟩
    rw [← memory] at leaves
    exact .inl ⟨t', by rw [Plain.run, Tracker.write, bind_apply_ok hooked]; rfl, leaves.atRest,
      leaves.sameFrames⟩
  | conditional v =>
    obtain ⟨r, id, m', run, stacked⟩ := conditionalBody_ok rest v
    obtain ⟨t', hooked, memory, -⟩ := HookM.memoryHook_of "conditional"
      (fun t => [("value", t.render v)]) (fun _ => conditionalBody v) run
    have leaves := stacked.leaves
    rw [← memory] at leaves
    refine .inl ⟨t'.modifyShadow fun s => { s with context := .conditional }, ?_, ?_, ?_⟩
    · rw [Plain.run, Tracker.conditional, bind_assoc, bind_apply_ok hooked]
      rfl
    · exact .inr ⟨rfl, congrArg List.length leaves.reserved⟩
    · have same := leaves.sameFrames
      exact ⟨same.callType, same.callSite, same.frames⟩
  | endExpression =>
    obtain ⟨m', run, stacked, -⟩ := CheckedM.expectIdle_ok rest "WEndExpr"
    obtain ⟨t', hooked, memory, -⟩ := HookM.memoryHook_of "end_expression" (fun _ => [])
      (fun _ => CheckedM.expectIdle "WEndExpr") run
    have leaves := stacked.leaves
    rw [← memory] at leaves
    exact .inl ⟨t', hooked, leaves.atRest, leaves.sameFrames⟩
  | evaluate code internal => exact Plain.evaluate_cases rest code internal

/-- What a run of a hook at rest says about it when it has succeeded. -/
theorem Plain.atRest_of_run {t t' : Tracker} {p : Plain} (rest : t.memory.shadow.AtRest)
    (run : p.run t = (.ok (), t')) : t'.memory.shadow.AtRest ∧ t.memory.SameFrames t'.memory := by
  rcases p.cases rest with ⟨_, ran, rest', same⟩ | ⟨_, _, failed, -⟩
  · rw [run] at ran
    cases ran
    exact ⟨rest', same⟩
  · rw [run] at failed
    cases failed

theorem Plain.endsRun_of_run {t t' : Tracker} {p : Plain} {e : Fault} (rest : t.memory.shadow.AtRest)
    (run : p.run t = (.error e, t')) : e.EndsRun := by
  rcases p.cases rest with ⟨_, ran, -⟩ | ⟨_, _, failed, ends⟩
  · rw [run] at ran
    cases ran
  · rw [run] at failed
    cases failed
    exact ends

end Plain

/-- What the hook before an operation leaves to the hook after it: the operation with the operands
that the host gets, and their identities on the stack, or in the frame that was saved for a call. -/
inductive Tracker.Hands (t t₁ : Tracker) : Paired → Paired → Prop where
  | getField {base offset b o : Value} {idb ido : Identity} (outb : t.memory.HandsOut base b idb)
      (outo : t.memory.HandsOut offset o ido) (leaves : t.memory.Leaves [ido, idb] t₁.memory) :
      Hands t t₁ (.getField base offset) (.getField b o)
  | putField {base offset v b o r : Value} {idb ido : Identity} {ids : List Identity}
      (outb : t.memory.HandsOut base b idb) (outo : t.memory.HandsOut offset o ido)
      (outv : t.memory.HandsStored v [ido, idb]
        (t.settings.policies.policyFor t.memory.heap b) r ids)
      (leaves : t.memory.Leaves ids t₁.memory) :
      Hands t t₁ (.putField base offset v) (.putField b o r)
  | binary {op : String} {left right l r : Value} {idl idr : Identity}
      (outl : t.memory.HandsOut left l idl) (outr : t.memory.HandsOut right r idr)
      (leaves : t.memory.Leaves [idr, idl] t₁.memory) :
      Hands t t₁ (.binary op left right) (.binary op l r)
  | unary {op : String} {operand x : Value} {id : Identity} (out : t.memory.HandsOut operand x id)
      (leaves : t.memory.Leaves [id] t₁.memory) : Hands t t₁ (.unary op operand) (.unary op x)
  | call {c q : Call} {ids : List Identity} (real : t.ghostOf? c = none)
      (hands : t.memory.HandsCall (t.placed c) q ids)
      (opens : t.memory.Opens c.site ids t₁.memory) (context : t₁.memory.shadow.context = .unset) :
      Hands t t₁ (.call c) (.call q)
  | ghost {c : Call} {ghost : Ghost} (called : t.ghostOf? c = some ghost)
      (leaves : t.memory.Leaves [] t₁.memory) : Hands t t₁ (.call c) (.call (t.placed c))

theorem Memory.HandsStored.ne_nil {m : Memory} {v r : Value} {id : Identity}
    {below ids : List Identity} {policy : Policy}
    (h : m.HandsStored v (id :: below) policy r ids) : ids ≠ [] := by
  cases h with
  | stripped out => exact List.cons_ne_nil _ _
  | kept other => exact List.cons_ne_nil _ _

theorem Memory.HandsCall.site {m : Memory} {c q : Call} {ids : List Identity}
    (h : m.HandsCall c q ids) : q.site = c.site := by
  cases h <;> rfl

section Before

theorem callPre_cases {t : Tracker} (rest : t.memory.shadow.AtRest) (c : Call) :
    (∃ q t₁, callPre c t = (.ok q, t₁) ∧ Hands t t₁ (.call c) (.call q)) ∨
      ∃ e t₁, callPre c t = (.error e, t₁) ∧ e.EndsRun := by
  obtain ⟨t₀, t', logs, run, ended⟩ := callPre_run t c
  have rest₀ : t₀.memory.shadow.AtRest := by rwa [logs.memory]
  have same : t₀.ghostOf? (t.placed c) = t.ghostOf? c := by
    rw [ghostOf?, ghostOf?, logs.ghosts, logs.memory]
    rfl
  rcases called : t.ghostOf? c with _ | ghost
  · rcases callPreBody_of_none rest₀ (t.placed c) (t.memory.isNativeCall (t.placed c))
      (same.trans called) with ⟨q, ids, t₁, body, -, -, hands, opens⟩ | ⟨f, t₁, body⟩
    · rw [body] at run ended
      rw [logs.memory] at hands opens
      have memory : t'.memory = t₁.memory.ended := ended.memory
      refine .inl ⟨q, t', run, .call called hands ⟨?_, ?_, ?_, ?_⟩ (by rw [memory]; rfl)⟩
      · rw [memory]
        exact trans_of Keeps opens.toKeeps (Memory.keeps_ended _)
      · rw [memory]
        exact opens.reserved
      · rw [memory]
        exact opens.callSite
      · rw [memory]
        exact opens.frames
    · rw [body] at run
      exact .inr ⟨_, t', run, .inl ⟨f, rfl⟩⟩
  · rcases callPreBody_of_ghost rest₀ (t.placed c) (t.memory.isNativeCall (t.placed c))
      (same.trans called) with ⟨t₁, body, -, -, stacked, -⟩ | ⟨e, t₁, body, ends⟩
    · rw [body] at run ended
      rw [logs.memory] at stacked
      have leaves := stacked.leaves
      have memory : t'.memory = t₁.memory.ended := ended.memory
      rw [← memory] at leaves
      exact .inl ⟨_, t', run, .ghost called leaves⟩
    · rw [body] at run
      exact .inr ⟨e, t', run, ends⟩

/-- At rest the hook before an operation succeeds, or it ends the run. -/
theorem Paired.before_cases {t : Tracker} (rest : t.memory.shadow.AtRest) (p : Paired) :
    (∃ q t₁, p.before t = (.ok q, t₁) ∧ Hands t t₁ p q) ∨
      ∃ e t₁, p.before t = (.error e, t₁) ∧ e.EndsRun := by
  cases p with
  | getField base offset =>
    obtain ⟨b, o, idb, ido, m', run, outb, outo, stacked⟩ := getFieldPreBody_ok rest base offset
    obtain ⟨t', hooked, memory, -⟩ := HookM.memoryHook_of "get_field_pre"
      (fun t => [("base", t.render base), ("offset", t.render offset)])
      (fun _ => getFieldPreBody base offset) run
    have leaves := stacked.leaves
    rw [← memory] at leaves
    exact .inl ⟨_, t', by rw [before, getFieldPre, bind_apply_ok hooked]; rfl,
      .getField outb outo leaves⟩
  | putField base offset v =>
    obtain ⟨b, o, r, idb, ido, ids, m', run, outb, outo, outv, stacked, -⟩ :=
      putFieldPreBody_ok t.settings.policies rest base offset v
    obtain ⟨t', hooked, memory, -⟩ := HookM.memoryHook_of "put_field_pre"
      (fun t => [("base", t.render base), ("offset", t.render offset), ("value", t.render v)])
      (putFieldPreBody base offset v) run
    have leaves := stacked.leaves
    rw [← memory] at leaves
    exact .inl ⟨_, t', by rw [before, putFieldPre, bind_apply_ok hooked]; rfl,
      .putField outb outo outv leaves⟩
  | binary op left right =>
    obtain ⟨l, r, idl, idr, m', run, outl, outr, stacked⟩ := binaryPreBody_ok rest left right
    obtain ⟨t', hooked, memory, -⟩ := HookM.memoryHook_of "binary_pre"
      (fun t => [("op", op), ("left", t.render left), ("right", t.render right)])
      (fun _ => binaryPreBody left right) run
    have leaves := stacked.leaves
    rw [← memory] at leaves
    exact .inl ⟨_, t', by rw [before, binaryPre, bind_apply_ok hooked]; rfl,
      .binary outl outr leaves⟩
  | unary op operand =>
    obtain ⟨x, id, m', run, out, stacked⟩ := unaryPreBody_ok rest operand
    obtain ⟨t', hooked, memory, -⟩ := HookM.memoryHook_of "unary_pre"
      (fun t => [("op", op), ("operand", t.render operand)])
      (fun _ => unaryPreBody operand) run
    have leaves := stacked.leaves
    rw [← memory] at leaves
    exact .inl ⟨_, t', by rw [before, unaryPre, bind_apply_ok hooked]; rfl, .unary out leaves⟩
  | call c =>
    rcases callPre_cases rest c with ⟨q, t₁, run, hands⟩ | ⟨e, t₁, run, ends⟩
    · exact .inl ⟨.call q, t₁, by rw [before, bind_apply_ok run]; rfl, hands⟩
    · exact .inr ⟨e, t₁, by rw [before, bind_apply_error run], ends⟩

/-- What the hook before an operation has handed over when it has succeeded. -/
theorem Paired.hands_of_before {t t₁ : Tracker} {p q : Paired} (rest : t.memory.shadow.AtRest)
    (before : p.before t = (.ok q, t₁)) : Hands t t₁ p q := by
  rcases p.before_cases rest with ⟨_, _, ran, hands⟩ | ⟨_, _, failed, -⟩
  · rw [before] at ran
    cases ran
    exact hands
  · rw [before] at failed
    cases failed

theorem Paired.endsRun_of_before {t t₁ : Tracker} {p : Paired} {e : Fault}
    (rest : t.memory.shadow.AtRest) (before : p.before t = (.error e, t₁)) : e.EndsRun := by
  rcases p.before_cases rest with ⟨_, _, ran, -⟩ | ⟨_, _, failed, ends⟩
  · rw [before] at ran
    cases ran
  · rw [before] at failed
    cases failed
    exact ends

end Before

/-- Between two hooks of an operation nothing happened to its frame, as long as something is reserved
in it, or to the frames below. -/
structure Memory.Resumes (m m' : Memory) : Prop where
  context : m'.shadow.context = .unset
  callSite : m'.shadow.frame.callSite = m.shadow.frame.callSite
  frames : ∀ site, m'.shadow.framesAt site = m.shadow.framesAt site
  frame : m.shadow.frame.reserved ≠ [] → m'.shadow.frame = m.shadow.frame

/-- What a part of a run needs to succeed. Something is reserved where a body may be entered, or else
the frame is one of a call. -/
def Phase.Ready (m : Memory) : Phase → Prop
  | operation | operations => m.shadow.AtRest
  | inside true => m.shadow.context = .unset ∧
      (m.shadow.frame.reserved ≠ [] ∨ m.shadow.frame.callSite ≠ functionEntrySite)
  | inside false => True

/-- What a part of a run guarantees if no hook fails. -/
def Phase.Complete (m m' : Memory) : Phase → Prop
  | operation | operations => m'.shadow.AtRest ∧ m.SameFrames m'
  | inside true => m.Resumes m'
  | inside false => m'.shadow = m.shadow

/-- What the host gets from the hook after an operation: the operands as they came to the hook before
it, and a literal result under an identity that was not handed out before. If a ghost function was called
its result is handed back as it is. -/
structure Paired.Returns (t t₂ t₃ : Tracker) (p : Paired) (result : Value)
    (r : Paired × Option Value) : Prop where
  operands : List.Forall₂ (t.memory.ComesBack t₃.memory) p.operands r.1.operands
  fresh : p.entersBodies t = true → ∀ w, r.2 = some w → t₂.memory.Fresh result w
  ghost : p.entersBodies t = false → r.2 = some result

section After

/-- Where identities are reserved between two hooks, the frame of the operation is as the first hook
left it. -/
theorem Memory.Leaves.resumed {ids : List Identity} {m m₁ m₂ : Memory} (leaves : m.Leaves ids m₁)
    (nonempty : ids ≠ []) (resumes : m₁.Resumes m₂) :
    m₂.shadow.frame = m.shadow.frame.withReserved ids ∧ m.SameFrames m₂ := by
  have frame := resumes.frame (by rw [leaves.reserved]; exact nonempty)
  have same := leaves.sameFrames
  exact ⟨frame.trans leaves.frame, (congrArg Frame.callType frame).trans same.callType,
    (congrArg Frame.callSite frame).trans same.callSite,
    fun site => (resumes.frames site).trans (same.frames site)⟩

/-- A ghost function stays one: it has a name, and a function that has a name keeps it. -/
theorem Ghosts.find?_of_evolves {g : Ghosts} {h h' : Heap} (ev : h.Evolves h') {f : Value}
    {ghost : Ghost} (found : g.find? h f = some ghost) : g.find? h' f = some ghost := by
  unfold find? at found ⊢
  rcases function : h.function? f with _ | fn <;> rw [function] at found
  · cases found
  · obtain ⟨fn', function', native, -, name⟩ := ev.function? function
    rw [function']
    dsimp only at found ⊢
    rw [Function.isNative] at found ⊢
    rw [native]
    split at found
    · cases found
    · rename_i script
      rw [if_neg script, name ?_]
      · exact found
      · intro anonymous
        rw [anonymous] at found
        have named := List.find?_some found
        cases ghost <;> exact absurd named (by decide)

/-- What is behind a value is an object only if the value is that object. -/
theorem ShadowState.eq_object_of_valueOf {s : ShadowState} {v : Value} {o : ObjectId}
    (h : (s.valueOf v).object? = some o) : v = .object o := by
  unfold valueOf at h
  split at h
  · cases h
  · cases v with
    | object other => exact congrArg Value.object (Option.some.inj h)
    | literal l => cases h
    | shadow handle identity l => cases h

theorem Tracker.ghostOf?_of_follows {t t' : Tracker} (follows : Follows Grows t t') {c : Call}
    {ghost : Ghost} (called : t.ghostOf? c = some ghost) : t'.ghostOf? c = some ghost := by
  obtain ⟨o, object⟩ : ∃ o, (t.memory.valueOf c.f).object? = some o := by
    unfold ghostOf? Ghosts.find? Heap.function? at called
    rcases object : (t.memory.valueOf c.f).object? with _ | o
    · rw [object] at called
      cases called
    · exact ⟨o, rfl⟩
  have same : t'.memory.valueOf c.f = t.memory.valueOf c.f := by
    rw [ShadowState.eq_object_of_valueOf object]
    rfl
  rw [ghostOf?, follows.ghosts, same]
  exact Ghosts.find?_of_evolves follows.memory.evolves called

/-- A call comes back with all its operands. -/
theorem Memory.CallComesBack.operands {m m' : Memory} {c c' : Call}
    (h : m.CallComesBack m' c c') : List.Forall₂ (m.ComesBack m') c.operands c'.operands :=
  .cons h.f (.cons h.base h.args)

theorem callPost_run (c : Call) (result : Value) (t : Tracker) :
    ∃ t₀ t', t.Logs t₀ ∧
      callPost c result t = ((callPostBody c result (t.memory.isNativeCall c) t₀).1, t') ∧
      t'.memory = (callPostBody c result (t.memory.isNativeCall c) t₀).2.memory.ended := by
  unfold callPost
  rw [get_bind_apply]
  obtain ⟨t₀, t', logs, run, ended⟩ := HookM.hook_run "invoke_fun"
    (fun t => [("f", t.render c.f), ("base", t.render c.base), ("args", t.renderAll c.args),
      ("result", t.render result)]) (callPostBody c result (t.memory.isNativeCall c)) t
  exact ⟨t₀, t', logs, run, ended.memory⟩

/-- After a call of a ghost function its operands are as they were. -/
theorem callPost_of_ghost {t t₁ t₂ : Tracker} {c : Call} {ghost : Ghost}
    (called : t.ghostOf? c = some ghost) (leaves : t.memory.Leaves [] t₁.memory)
    (follows : Follows Grows t t₂) (inside : t₂.memory.shadow = t₁.memory.shadow)
    (result : Value) :
    ∃ t₃, callPost (t.placed c) result t₂ = (.ok (t.placed c, result), t₃) ∧
      t₃.memory.shadow.AtRest ∧ t.memory.SameFrames t₃.memory ∧
      t.memory.CallComesBack t₃.memory c (t.placed c) := by
  obtain ⟨t₀, t₃, logs, run, memory⟩ := callPost_run (t.placed c) result t₂
  have called₀ : t₀.ghostOf? (t.placed c) = some ghost := by
    have later := ghostOf?_of_follows follows called
    rw [ghostOf?, logs.ghosts, logs.memory]
    exact later
  rw [callPostBody_of_ghost called₀] at run memory
  rw [logs.memory] at memory
  have leaves₃ : t.memory.Leaves [] t₃.memory := by
    rw [memory]
    exact ⟨by rw [Memory.ended, inside, leaves.frame],
      by rw [Memory.ended, inside, leaves.saved], rfl⟩
  have grows : t.memory.Grows t₃.memory := by
    rw [memory]
    exact follows.memory.trans (Memory.keeps_ended _).toGrows
  have back := grows.callComesBack c
  exact ⟨t₃, run, leaves₃.atRest, leaves₃.sameFrames, back.f, back.base, back.args⟩

/-- After any other call its operands come back in the frame of the caller. -/
theorem callPost_of_none {t t₁ t₂ : Tracker} {c q : Call} {ids : List Identity}
    (hands : t.memory.HandsCall (t.placed c) q ids) (opens : t.memory.Opens c.site ids t₁.memory)
    (follows : Follows Grows t t₂) (resumes : t₁.memory.Resumes t₂.memory)
    (real : t₂.ghostOf? q = none) (result : Value) :
    ∃ c' w t₃, callPost q result t₂ = (.ok (c', w), t₃) ∧ t₃.memory.shadow.AtRest ∧
      t.memory.SameFrames t₃.memory ∧
      (t.memory.shadow.frame.callType.skipsWrapping = false →
        t.memory.CallComesBack t₃.memory c c' ∧ t₂.memory.Fresh result w) := by
  obtain ⟨t₀, t₃, logs, run, memory⟩ := callPost_run q result t₂
  obtain ⟨trees, frames⟩ := opens.frames
  have site : q.site = c.site := hands.site
  have saved : t₀.memory.shadow.framesAt q.site =
      { t.memory.shadow.frame with reserved := ids, trees } :: t.memory.shadow.framesAt c.site := by
    rw [logs.memory, resumes.frames, frames, site, if_pos rfl]
  have grows₀ : t.memory.Grows t₀.memory := by
    rw [logs.memory]
    exact follows.memory
  have real₀ : t₀.ghostOf? q = none := by
    rw [ghostOf?, logs.ghosts, logs.memory]
    exact real
  obtain ⟨c', w, t₄, body, -, -, closes, back⟩ :=
    callPostBody_of_none real₀ hands grows₀ saved rfl result (t₂.memory.isNativeCall q)
  rw [body] at run memory
  rw [logs.memory] at closes back
  have atEnd (site' : CallSite) :
      t₃.memory.shadow.framesAt site' = t.memory.shadow.framesAt site' := by
    have closed := closes.frames site'
    rw [site, resumes.frames, frames] at closed
    rw [memory]
    refine closed.trans ?_
    split
    · rename_i same
      rw [same]
    · rfl
  have frame : t₃.memory.shadow.frame = t₄.memory.shadow.frame := by rw [memory]; rfl
  refine ⟨c', w, t₃, run, .inl ⟨?_, ?_⟩, ⟨?_, ?_, atEnd⟩, fun wraps => ?_⟩
  · rw [memory]
    rfl
  · rw [frame, closes.frame]
    rfl
  · rw [frame, closes.frame]
    rfl
  · rw [frame, closes.frame]
    rfl
  · obtain ⟨comes, fresh⟩ := back wraps
    have ended := comes.mono (Memory.keeps_ended t₄.memory).toGrows
    rw [memory]
    exact ⟨⟨ended.f, ended.base, ended.args⟩, fresh⟩

/-- The hook after an operation gives the host what it should, and the run can go on. -/
structure Paired.Closes (t t₂ t₃ : Tracker) (p : Paired) (result : Value) (r : Paired × Option Value) :
    Prop where
  rest : t₃.memory.shadow.AtRest
  same : t.memory.SameFrames t₃.memory
  returns : t.memory.shadow.frame.callType.skipsWrapping = false → Paired.Returns t t₂ t₃ p result r

/-- The hook after an operation but a call closes it if its body has used up what was reserved and has
brought the operands back. -/
theorem Memory.Stacks.closes {t t₂ t₃ : Tracker} {p : Paired} {result : Value}
    {r : Paired × Option Value} {m' : Memory} (stacked : t₂.memory.Stacks [] m')
    (same : t.memory.SameFrames t₂.memory) (memory : t₃.memory = m'.ended)
    (bodies : p.entersBodies t = true) (back : t₂.memory.shadow.frame.callType.skipsWrapping = false →
      List.Forall₂ (t.memory.ComesBack m') p.operands r.1.operands ∧
        ∀ w, r.2 = some w → t₂.memory.Fresh result w) : Paired.Closes t t₂ t₃ p result r := by
  have leaves := stacked.leaves
  have ended := (Memory.keeps_ended m').toGrows
  rw [← memory] at leaves ended
  refine ⟨leaves.atRest, trans_of SameFrames same leaves.sameFrames, fun wraps => ?_⟩
  obtain ⟨operands, fresh⟩ := back (by rw [same.callType, wraps])
  refine ⟨operands.imp fun _ _ comes => comes.mono ended, fun _ => fresh, fun ghost => ?_⟩
  rw [bodies] at ghost
  cases ghost

/-- The hook after a store succeeds, or it refuses the store. -/
theorem Tracker.Hands.after_putField {t t₁ t₂ : Tracker} {base offset v b o r : Value}
    {idb ido : Identity} {ids : List Identity} (outb : t.memory.HandsOut base b idb)
    (outo : t.memory.HandsOut offset o ido)
    (outv : t.memory.HandsStored v [ido, idb] (t.settings.policies.policyFor t.memory.heap b) r ids)
    (leaves : t.memory.Leaves ids t₁.memory) (follows : Follows Grows t t₂)
    (inside : Phase.Complete t₁.memory t₂.memory (.inside true))
    (undisturbed : Paired.Undisturbed t t₂ (.putField base offset v) (.putField b o r))
    (result : Value) :
    (∃ q t₃, (Paired.putField b o r).after result t₂ = (.ok q, t₃) ∧
      Paired.Closes t t₂ t₃ (.putField base offset v) result q) ∨
    ∃ f t₃, (Paired.putField b o r).after result t₂ = (.error (.finding f), t₃) := by
  have grows := follows.memory
  obtain ⟨frame, same⟩ := leaves.resumed outv.ne_nil inside
  obtain ⟨allocated, tag⟩ := undisturbed
  -- the host has not changed what kind of thing the base is, so the same policy decides
  have policy : t₂.settings.policies.policyFor t₂.memory.heap b =
      t.settings.policies.policyFor t.memory.heap b := by
    rw [follows.settings, Levels.policyFor, Levels.policyFor,
      ValueKind.of_evolves grows.evolves allocated tag]
  rcases putFieldBody_cases t₂.settings.policies outb outo (policy ▸ outv) grows
    (by rw [frame]; rfl) with ⟨ops, m', run, stacked, back⟩ | ⟨f, m', run⟩
  · obtain ⟨t₃, hooked, memory, -⟩ := HookM.memoryHook_of "put_field"
      (fun t => [("base", t.render b), ("offset", t.render o), ("value", t.render r)])
      (putFieldBody b o r) run
    refine .inl ⟨_, t₃, by rw [Paired.after, Tracker.putField, bind_apply_ok hooked]; rfl,
      stacked.closes same memory rfl fun wraps => ?_⟩
    obtain ⟨backb, backo, backv⟩ := back wraps
    exact ⟨.cons backb (.cons backo (.cons backv .nil)), fun w returned => nomatch returned⟩
  · obtain ⟨t₃, hooked, -⟩ := HookM.memoryHook_of "put_field"
      (fun t => [("base", t.render b), ("offset", t.render o), ("value", t.render r)])
      (putFieldBody b o r) run
    exact .inr ⟨f, t₃, by rw [Paired.after, Tracker.putField, bind_apply_error hooked]⟩

/-- The hook after an operation succeeds, or it refuses a store. -/
theorem Tracker.Hands.after_cases {t t₁ t₂ : Tracker} {p q : Paired} (hands : Hands t t₁ p q)
    (follows : Follows Grows t t₂)
    (inside : Phase.Complete t₁.memory t₂.memory (.inside (p.entersBodies t)))
    (undisturbed : Paired.Undisturbed t t₂ p q) (result : Value) :
    (∃ r t₃, q.after result t₂ = (.ok r, t₃) ∧ Paired.Closes t t₂ t₃ p result r) ∨
    ∃ f t₃, q.after result t₂ = (.error (.finding f), t₃) := by
  have grows := follows.memory
  -- what ran inside has put the frame back, so the hook finds reserved what the one before it did
  cases hands with
  | @getField base offset b o idb ido outb outo leaves =>
    obtain ⟨frame, same⟩ := leaves.resumed (List.cons_ne_nil _ _) inside
    obtain ⟨ops, m', run, stacked, back⟩ := getFieldBody_ok t₂.settings.policies outb outo grows
      (by rw [frame]; rfl) result
    obtain ⟨t₃, hooked, memory, -⟩ := HookM.memoryHook_of "get_field"
      (fun t => [("base", t.render b), ("offset", t.render o), ("value", t.render result)])
      (getFieldBody b o result) run
    refine .inl ⟨_, t₃, by rw [Paired.after, Tracker.getField, bind_apply_ok hooked]; rfl,
      stacked.closes same memory rfl fun wraps => ?_⟩
    obtain ⟨backb, backo, fresh⟩ := back wraps
    refine ⟨.cons backb (.cons backo .nil), fun w returned => ?_⟩
    cases returned
    exact fresh
  | putField outb outo outv leaves =>
    exact after_putField outb outo outv leaves follows inside undisturbed result
  | @binary op left right l r idl idr outl outr leaves =>
    obtain ⟨frame, same⟩ := leaves.resumed (List.cons_ne_nil _ _) inside
    obtain ⟨l', r', w, m', run, stacked, back⟩ := binaryBody_ok t₂.settings.policies op outl outr
      grows (by rw [frame]; rfl) result
    obtain ⟨t₃, hooked, memory, -⟩ := HookM.memoryHook_of "binary"
      (fun t => [("op", op), ("left", t.render l), ("right", t.render r),
        ("result", t.render result)]) (binaryBody op l r result) run
    refine .inl ⟨_, t₃, by rw [Paired.after, Tracker.binary, bind_apply_ok hooked]; rfl,
      stacked.closes same memory rfl fun wraps => ?_⟩
    obtain ⟨backl, backr, fresh⟩ := back wraps
    refine ⟨.cons backl (.cons backr .nil), fun w returned => ?_⟩
    cases returned
    exact fresh
  | @unary op operand x id out leaves =>
    obtain ⟨frame, same⟩ := leaves.resumed (List.cons_ne_nil _ _) inside
    obtain ⟨x', w, m', run, stacked, back⟩ := unaryBody_ok t₂.settings.policies out grows
      (by rw [frame]; rfl) result
    obtain ⟨t₃, hooked, memory, -⟩ := HookM.memoryHook_of "unary"
      (fun t => [("op", op), ("operand", t.render x), ("result", t.render result)])
      (unaryBody x result) run
    refine .inl ⟨_, t₃, by rw [Paired.after, Tracker.unary, bind_apply_ok hooked]; rfl,
      stacked.closes same memory rfl fun wraps => ?_⟩
    obtain ⟨back, fresh⟩ := back wraps
    refine ⟨.cons back .nil, fun w returned => ?_⟩
    cases returned
    exact fresh
  | @call c q ids real hands opens context =>
    rw [Paired.entersBodies, real] at inside
    obtain ⟨c', w, t₃, run, rest, same₃, back⟩ :=
      callPost_of_none hands opens follows inside (undisturbed real) result
    refine .inl ⟨_, t₃, by rw [Paired.after, bind_apply_ok run]; rfl, rest, same₃, fun wraps => ?_⟩
    obtain ⟨comes, fresh⟩ := back wraps
    refine ⟨comes.operands, fun _ w returned => ?_, fun ghost => ?_⟩
    · cases returned
      exact fresh
    · rw [Paired.entersBodies, real] at ghost
      cases ghost
  | @ghost c ghost called leaves =>
    rw [Paired.entersBodies, called] at inside
    obtain ⟨t₃, run, rest, same₃, back⟩ := callPost_of_ghost called leaves follows inside result
    refine .inl ⟨(.call (t.placed c), some result), t₃, by rw [Paired.after, bind_apply_ok run]; rfl,
      rest, same₃, fun _ => ⟨back.operands, fun enters => ?_, fun _ => rfl⟩⟩
    rw [Paired.entersBodies, called] at enters
    cases enters

/-- What the hook after an operation has done when it has succeeded. -/
theorem Tracker.Hands.closes_of_after {t t₁ t₂ t₃ : Tracker} {p q : Paired} {result : Value}
    {r : Paired × Option Value} (hands : Hands t t₁ p q) (follows : Follows Grows t t₂)
    (inside : Phase.Complete t₁.memory t₂.memory (.inside (p.entersBodies t)))
    (undisturbed : Paired.Undisturbed t t₂ p q) (after : q.after result t₂ = (.ok r, t₃)) :
    Paired.Closes t t₂ t₃ p result r := by
  rcases hands.after_cases follows inside undisturbed result with ⟨_, _, ran, closes⟩ | ⟨_, _, failed⟩
  · rw [after] at ran
    cases ran
    exact closes
  · rw [after] at failed
    cases failed

theorem Tracker.Hands.endsRun_of_after {t t₁ t₂ t₃ : Tracker} {p q : Paired} {result : Value}
    {e : Fault} (hands : Hands t t₁ p q) (follows : Follows Grows t t₂)
    (inside : Phase.Complete t₁.memory t₂.memory (.inside (p.entersBodies t)))
    (undisturbed : Paired.Undisturbed t t₂ p q) (after : q.after result t₂ = (.error e, t₃)) :
    e.EndsRun := by
  rcases hands.after_cases follows inside undisturbed result with ⟨_, _, ran, -⟩ | ⟨f, _, failed⟩
  · rw [after] at ran
    cases ran
  · rw [after] at failed
    cases failed
    exact .inl ⟨f, rfl⟩

end After

section Bodies

theorem Tracker.Hands.ready {t t₁ : Tracker} {p q : Paired} (hands : Hands t t₁ p q)
    (regular : p.Regular) : Phase.Ready t₁.memory (.inside (p.entersBodies t)) := by
  cases hands with
  | getField _ _ leaves | binary _ _ leaves | unary _ leaves =>
    exact ⟨leaves.context, .inl (by rw [leaves.reserved]; exact List.cons_ne_nil _ _)⟩
  | putField _ _ outv leaves =>
    exact ⟨leaves.context, .inl (by rw [leaves.reserved]; exact outv.ne_nil)⟩
  | call real _ opens context =>
    rw [Paired.entersBodies, real]
    exact ⟨context, .inr (by rw [opens.callSite]; exact regular)⟩
  | ghost called _ =>
    rw [Paired.entersBodies, called]
    trivial

theorem Memory.Resumes.ready {m m' : Memory} (h : m.Resumes m')
    (ready : Phase.Ready m (.inside true)) : Phase.Ready m' (.inside true) := by
  refine ⟨h.context, ?_⟩
  by_cases reserved : m.shadow.frame.reserved = []
  · have called := ready.2.resolve_left fun held => held reserved
    exact .inr (by rw [h.callSite]; exact called)
  · exact .inl (by rw [h.frame reserved]; exact reserved)

theorem Memory.Resumes.trans {m₁ m₂ m₃ : Memory} (first : m₁.Resumes m₂) (second : m₂.Resumes m₃) :
    m₁.Resumes m₃ where
  context := second.context
  callSite := second.callSite.trans first.callSite
  frames site := (second.frames site).trans (first.frames site)
  frame reserved := by
    have same := first.frame reserved
    exact (second.frame (by rw [same]; exact reserved)).trans same

/-- A function body can be entered between two hooks, and when it is left from a state with the frames
that were there when it was entered, the operation around it resumes. -/
theorem enterFunction_ok {t : Tracker} (ready : Phase.Ready t.memory (.inside true)) (f : Value) :
    ∃ t₁, enterFunction f t = (.ok (), t₁) ∧ t₁.memory.shadow.AtRest ∧
      ∀ t₂ : Tracker, t₁.memory.InPlace t₂.memory →
        ∃ t₃, exitFunction false t₂ = (.ok (), t₃) ∧ t.memory.Resumes t₃.memory := by
  obtain ⟨unset, reserved⟩ := ready
  have enters (m' : Memory) := HookM.memoryHook_of "function_enter" (fun t => [("f", t.render f)])
    (fun _ => enterFunctionBody f) (t := t) (r := .ok ()) (m := m')
  have exits (t₂ : Tracker) (m' : Memory) := HookM.memoryHook_of "function_exit"
    (fun _ => [("threw", if false then "true" else "false")])
    (fun _ => exitFunctionBody false) (t := t₂) (r := .ok ()) (m := m')
  -- with nothing pending the frame is that of a call; otherwise an operation runs the function and its
  -- frame is saved
  by_cases pending : t.memory.shadow.frame.reserved = []
  · have called := reserved.resolve_left fun held => held pending
    obtain ⟨m₁, run, empty, callSite, saved⟩ := enterFunctionBody_of_idle unset pending f
    obtain ⟨t₁, entered, memory, -⟩ := enters m₁ run
    refine ⟨t₁, entered, ?_, fun t₂ same => ?_⟩
    · rw [memory]
      exact .inl ⟨rfl, empty⟩
    · have site : t₂.memory.shadow.frame.callSite = t.memory.shadow.frame.callSite := by
        rw [same.callSite, memory]
        exact callSite
      obtain ⟨t₃, left, memory₃, -⟩ := exits t₂ t₂.memory
        (exitFunctionBody_of_call (by rw [site]; exact called))
      refine ⟨t₃, left, ?_⟩
      rw [memory₃]
      refine ⟨rfl, site, fun site => (same.frames site).trans ?_, fun held => absurd pending held⟩
      rw [memory]
      exact ShadowState.framesAt_of_saved saved site
  · obtain ⟨m₁, run, empty, callSite, frames⟩ := enterFunctionBody_of_pending unset pending f
    obtain ⟨t₁, entered, memory, -⟩ := enters m₁ run
    refine ⟨t₁, entered, ?_, fun t₂ same => ?_⟩
    · rw [memory]
      exact .inl ⟨rfl, empty⟩
    · have framesAt (site : CallSite) : t₂.memory.shadow.framesAt site = m₁.shadow.framesAt site := by
        rw [same.frames, memory]
        rfl
      have top : t₂.memory.shadow.framesAt functionEntrySite =
          t.memory.shadow.frame :: t.memory.shadow.framesAt functionEntrySite := by
        rw [framesAt, frames, if_pos rfl]
      have site : t₂.memory.shadow.frame.callSite = functionEntrySite := by
        rw [same.callSite, memory]
        exact callSite
      obtain ⟨m₃, left, frame, below⟩ := exitFunctionBody_of_entry site top
      obtain ⟨t₃, left, memory₃, -⟩ := exits t₂ m₃ left
      refine ⟨t₃, left, ?_⟩
      rw [memory₃]
      refine ⟨rfl, congrArg Frame.callSite frame, fun site => ?_, fun _ => frame⟩
      have closed := below site
      rw [framesAt, frames] at closed
      refine closed.trans ?_
      split
      · rename_i same
        rw [same]
      · rfl

theorem atRest_of_enterFunction {t t₁ : Tracker} {f : Value} {r : Except Fault Unit}
    (ready : Phase.Ready t.memory (.inside true)) (enter : enterFunction f t = (r, t₁)) :
    r = .ok () ∧ t₁.memory.shadow.AtRest := by
  obtain ⟨_, entered, rest, -⟩ := enterFunction_ok ready f
  rw [enter] at entered
  cases entered
  exact ⟨rfl, rest⟩

theorem resumes_of_exitFunction {t t₁ t₂ t₃ : Tracker} {f : Value} {r r' : Except Fault Unit}
    (ready : Phase.Ready t.memory (.inside true)) (enter : enterFunction f t = (r, t₁))
    (same : t₁.memory.InPlace t₂.memory) (exit : exitFunction false t₂ = (r', t₃)) :
    r' = .ok () ∧ t.memory.Resumes t₃.memory := by
  obtain ⟨_, entered, -, leaving⟩ := enterFunction_ok ready f
  rw [enter] at entered
  cases entered
  obtain ⟨_, left, resumes⟩ := leaving t₂ same
  rw [exit] at left
  cases left
  exact ⟨rfl, resumes⟩

end Bodies

/-- What comes out of a part of a run: what it guarantees, or a fault that ends the run by design. -/
def Phase.Outcome (m m' : Memory) (phase : Phase) : Option Fault → Prop
  | none => phase.Complete m m'
  | some e => e.EndsRun

/-- Every part of a run that has what it needs guarantees what it should, unless a hook ends it by
design. -/
theorem Runs.outcome {phase : Phase} {t t' : Tracker} {fault : Option Fault}
    (h : Runs phase t fault t') (ready : phase.Ready t.memory) :
    phase.Outcome t.memory t'.memory fault := by
  -- on the run: what is ready before a step is what the outcome of the step before it says
  induction h with
  | plain p run => exact Plain.atRest_of_run ready run
  | plainFails p run => exact Plain.endsRun_of_run ready run
  | @paired t t₁ t₂ t₃ p q r result regular before inside undisturbed after ih =>
    have hands := Paired.hands_of_before ready before
    have follows := trans_of (Follows Grows) (p.follows_before.of_apply before) inside.follows
    have closes := hands.closes_of_after follows (ih (hands.ready regular)) undisturbed after
    exact ⟨closes.rest, closes.same⟩
  | beforeFails before => exact Paired.endsRun_of_before ready before
  | insideFails regular before inside ih =>
    exact ih ((Paired.hands_of_before ready before).ready regular)
  | @afterFails t t₁ t₂ t₃ p q e result regular before inside undisturbed after ih =>
    have hands := Paired.hands_of_before ready before
    have follows := trans_of (Follows Grows) (p.follows_before.of_apply before) inside.follows
    exact hands.endsRun_of_after follows (ih (hands.ready regular)) undisturbed after
  | done t => exact ⟨ready, refl_of SameFrames t.memory⟩
  | @next t t₁ t₂ fault _ _ first rest =>
    obtain ⟨atRest, same⟩ := first ready
    have later := rest atRest
    cases fault with
    | some e => exact later
    | none => exact ⟨later.1, trans_of SameFrames same later.2⟩
  | nextFails _ first => exact first ready
  | @between t t₂ fault heap evolves _ rest =>
    have later := rest ready
    cases fault with
    | some e => exact later
    | none => exact ⟨later.1, later.2.callType, later.2.callSite, later.2.frames⟩
  | @nothing bodies t =>
    cases bodies with
    | false => rfl
    | true => exact ⟨ready.1, rfl, fun _ => rfl, fun _ => rfl⟩
  | @host t t₂ bodies fault heap evolves _ rest =>
    have later : Phase.Outcome _ _ _ _ := rest (by cases bodies <;> exact ready)
    cases fault with
    | some e => exact later
    | none =>
      cases bodies with
      | false => exact later
      | true => exact ⟨later.context, later.callSite, later.frames, later.frame⟩
  | @body t t₁ t₂ t₃ t₄ fault f enter _ exit _ operations rest =>
    obtain ⟨-, atRest⟩ := atRest_of_enterFunction ready enter
    obtain ⟨-, resumes⟩ := resumes_of_exitFunction ready enter (operations atRest).2.inPlace exit
    have later := rest (resumes.ready ready)
    cases fault with
    | some e => exact later
    | none => exact resumes.trans later
  | enterFails f enter => exact nomatch (atRest_of_enterFunction ready enter).1
  | bodyFails f enter _ operations => exact operations (atRest_of_enterFunction ready enter).2
  | exitFails f enter _ exit operations =>
    obtain ⟨-, atRest⟩ := atRest_of_enterFunction ready enter
    exact nomatch (resumes_of_exitFunction ready enter (operations atRest).2.inPlace exit).1

/-- A complete operation that starts at rest, with whatever runs inside it, ends at rest with the same
frames, unless a finding or a fault of a ghost function ends it. -/
theorem Runs.ends_atRest {t t' : Tracker} {fault : Option Fault} (h : Runs .operation t fault t')
    (rest : t.memory.shadow.AtRest) :
    (∃ e, fault = some e ∧ e.EndsRun) ∨
      (fault = none ∧ t'.memory.shadow.AtRest ∧ t.memory.SameFrames t'.memory) := by
  have outcome := h.outcome rest
  cases fault with
  | some e => exact .inl ⟨e, rfl, outcome⟩
  | none => exact .inr ⟨rfl, outcome⟩

/-- A tracker at its start, on whose heap lies one function. -/
def Tracker.withFunction (name : String) : Tracker where
  settings := {}
  memory := { heap := ⟨#[{ kind := .function { name } }]⟩ }
  ghosts := .standard true
  scope := {}

/-- While a property is read, a getter may run, in which a literal is evaluated. -/
theorem Runs.ends_atRest_getter : (withFunction "getter").memory.shadow.AtRest ∧ ∃ t',
    Runs .operation (withFunction "getter") none t' ∧ t'.memory.shadow.AtRest := by
  have rest : (withFunction "getter").memory.shadow.AtRest := .inl ⟨rfl, rfl⟩
  have run : Runs .operation (withFunction "getter") none _ :=
    .paired (p := .getField (.object 0) (.string "x")) .undefined trivial rfl
      (.body (.object 0) rfl (.next (.plain (.literal (.string "s")) rfl) (.done _)) rfl
        (.nothing _)) trivial rfl
  rcases Runs.ends_atRest run rest with ⟨_, impossible, -⟩ | ⟨-, rest', -⟩
  · cases impossible
  · exact ⟨rest, _, run, rest'⟩

/-- A call of the function on the heap, in whose body a condition is tested. -/
def Tracker.callWithBody : HookM Unit := do
  let c ← callPre { f := .object 0, base := .undefined, args := [.undefined], site := 1 }
  enterFunction (.object 0)
  let _ ← conditional (.literal (.bool true))
  exitFunction false
  let _ ← callPost c .undefined

/-- Where a body is entered inside the call of a ghost function, the discipline is broken: no hook of
the call fails, but the identity of the condition stays reserved, and the next hook fails. -/
theorem Tracker.ghostBody_leaves_identity :
    (withFunction "__jalangi_clear_taint__").memory.shadow.AtRest ∧
      (callWithBody (withFunction "__jalangi_clear_taint__")).1 = .ok () ∧
      ¬ (callWithBody (withFunction "__jalangi_clear_taint__")).2.memory.shadow.AtRest ∧
      (literal .undefined (callWithBody (withFunction "__jalangi_clear_taint__")).2).1 =
        .error (.violation (.pending "WLiteral" 0 1)) := by
  refine ⟨.inl ⟨rfl, rfl⟩, rfl, ?_, rfl⟩
  rintro (⟨-, reserved⟩ | ⟨context, -⟩)
  · cases reserved
  · cases context

end ShadowTaint
