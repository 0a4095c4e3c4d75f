import ShadowTaint.Proofs.Contents
import ShadowTaint.Proofs.Laundering
import ShadowTaint.Proofs.Native
import ShadowTaint.Proofs.SinkChains
import ShadowTaint.Proofs.Transparency
import ShadowTaint.Tracker.Operations
/-!
# Complete calls of methods of the runtime

A call of a method of the runtime goes through two hooks with the method in between. This file says once
what such a call does: what the method is given, what becomes of the heap before and after it, and that its
result is wrapped last, after which the rule for the method applies.

## Main definitions

- `Passing.give`: the arguments that a function is given.
- `Tracker.CallsMethod`: a method of the runtime is called on an object.
- `Tracker.MethodRun`: what a complete call of a method does.

## Main statements

- `MemoryM.prepareArguments_fst`: what the hook before a call hands over for the arguments.
- `Tracker.methodRun_of_invoke`: a call that succeeds is such a call.
- `Tracker.invoke_of_runs`: a call without arguments succeeds if the method does.
-/

namespace ShadowTaint

open Memory Tracker

/-- The arguments that a function is given: without shadows, as they are, or as they are but for the first
one. -/
def Passing.give (m : Memory) : Passing → List Value → List Value
  | .stripped, args => args.map m.valueOf
  | .wrapped, args => args
  | .wrappedAfterKey, args => args.modifyHead m.valueOf

theorem Passing.give_nil (m : Memory) (passing : Passing) : passing.give m [] = [] := by
  cases passing <;> rfl

namespace MemoryM

theorem unwrapObject_fst (v : Value) (m : Memory) : (unwrapObject v m).1.1 = m.valueOf v := by
  unfold unwrapObject
  rw [bind_apply, get_apply]
  dsimp only
  rcases m.objectOf? v with _ | id
  · rfl
  · have handles : m.SameHandles (stripProperties m.heap.objects.size id [id] m).2 :=
      admitsStripping_sameHandles.stripProperties _ _ _ m
    exact valueOf_of_wraps handles v

theorem stripArgument_fst (arg : Value) (kept : Option (ObjectId × Value)) (m : Memory) :
    (stripArgument arg kept m).1.1 = m.valueOf arg := by
  rcases kept with _ | ⟨object, v⟩
  · exact unwrapObject_fst arg m
  · exact unwrapObject_fst arg m

/-- What is handed over for each value on its own is handed over for all of them, if handles stay. -/
theorem map_mapM_of_handles {α β : Type} (given : β → Value) {f : α → MemoryM β} {v : α → Value}
    (handles : ∀ a, Within SameHandles (f a)) (step : ∀ a m, given (f a m).1 = m.valueOf (v a))
    (as : List α) (m : Memory) : (as.mapM f m).1.map given = as.map fun a => m.valueOf (v a) := by
  induction as generalizing m with
  | nil => rfl
  | cons a rest ih =>
    rw [List.mapM_cons]
    have later := ih (f a m).2
    simp only [valueOf_of_wraps (handles a m)] at later
    exact congr (congrArg List.cons (step a m)) later

/-- What the hook before a call hands over for the arguments. -/
theorem prepareArguments_fst (policy : Policy) (f : Value) (args : List Value) (m : Memory) :
    (prepareArguments policy f args m).1 = (policy.passing m f args).give m args := by
  unfold prepareArguments
  rw [bind_apply, get_apply]
  dsimp only
  cases policy.passing m f args with
  | wrapped => rfl
  | wrappedAfterKey => cases args <;> rfl
  | stripped =>
    have strips := map_mapM_of_handles (fun p : Value × List TaintTree => p.1)
      (f := fun p : Value × Nat => do
        let m' ← get
        stripArgument p.1 (if m.functionName f == "defineProperty" && p.2 == 2 then
          descriptorValue? m' p.1 else none))
      (v := fun p => p.1)
      (fun p => .bind .get fun _ => admitsStripping_sameHandles.stripArgument _ _)
      (fun p m' => stripArgument_fst p.1 _ m') args.zipIdx m
    refine strips.trans ?_
    show args.zipIdx.map (m.valueOf ∘ Prod.fst) = args.map m.valueOf
    rw [← List.map_map, List.zipIdx_map_fst]

end MemoryM

namespace MemoryM

theorem restoreArguments_nil (levels : Levels) (policy : Policy) (f : Value) (m : Memory) :
    restoreArguments levels policy f [] m = ([], m) := by
  unfold restoreArguments
  rw [bind_apply, get_apply]
  dsimp only
  cases policy.passing m f [] <;> rfl

end MemoryM

namespace Memory

variable {m m₁ m' : Memory} {levels : Levels}

/-- The hook before a call took shadows off, and nothing else. -/
structure Undresses (m m₁ : Memory) : Prop extends Grows m m₁ where
  handles : m.SameHandles m₁
  contents : m.SameContents m₁
  lasts : ∀ {P : Memory → Prop}, Lasting P → P m → P m₁

/-- The hook after a call put shadows on, and nothing else. -/
structure Redresses (levels : Levels) (m m₁ : Memory) : Prop extends Grows m m₁ where
  quiet : m.Quiet m₁
  retains : m.Retains levels m₁

theorem Redresses.trans {m₂ : Memory} (first : m.Redresses levels m₁) (second : m₁.Redresses levels m₂) :
    m.Redresses levels m₂ where
  toGrows := first.toGrows.trans second.toGrows
  quiet := trans_of Quiet first.quiet second.quiet
  retains := trans_of (Retains levels) first.retains second.retains

theorem redresses_wrap (levels : Levels) (v : Value) (m : Memory) :
    m.Redresses levels (MemoryM.wrap levels v m).2 where
  toGrows := (MemoryM.stacks_wrap levels v m).toGrows
  quiet := MemoryM.quiet_wrap levels v m
  retains := MemoryM.retains_wrap levels v m

/-- Where no handle is new, a memory in between knows the same handles. -/
theorem sameHandles_of_grows (handles : m.SameHandles m') (first : m.Grows m₁) (second : m₁.Grows m') :
    m.SameHandles m₁ := by
  refine Array.ext_getElem? fun i => ?_
  rcases later : m₁.shadow.wraps[i]? with _ | x
  · rcases early : m.shadow.wraps[i]? with _ | y
    · rfl
    · rw [first.known i y early] at later
      cases later
  · rw [← handles, second.known i x later]

theorem passing_congr (handles : m.SameHandles m') (heap : m'.heap = m.heap) (policy : Policy) (f : Value)
    (args : List Value) : policy.passing m' f args = policy.passing m f args := by
  have value (v : Value) : m'.valueOf v = m.valueOf v := valueOf_of_wraps handles v
  have name : m'.functionName f = m.functionName f := by rw [functionName, functionName, heap, value]
  have native : m'.isNative = m.isNative := by
    funext v
    rw [isNative, isNative, heap, value]
  unfold Policy.passing iteratesScript
  rw [name, native]

end Memory

namespace Tracker

/-- The function is a method of the runtime that has the name. -/
structure CallsNative (t : Tracker) (c : Call) (name : String) (n : Native) : Prop where
  function : t.memory.heap.function? c.f = some { name, native := some n }
  method : c.method = true

namespace CallsNative

variable {t t₁ : Tracker} {c q : Call} {name : String} {n : Native}

theorem f_object (h : t.CallsNative c name n) : ∃ o, c.f = .object o := by
  have function := h.function
  cases f : c.f with
  | object o => exact ⟨o, rfl⟩
  | literal l => rw [f] at function; cases function
  | shadow handle identity raw => rw [f] at function; cases function

theorem function_valueOf (h : t.CallsNative c name n) :
    t.memory.heap.function? (t.memory.valueOf c.f) = some { name, native := some n } := by
  obtain ⟨o, f⟩ := h.f_object
  have value : t.memory.valueOf c.f = c.f := by rw [f]; rfl
  rw [value, h.function]

theorem outside (h : t.CallsNative c name n) : t.memory.isExternalCall c = true := by
  have builtin : t.memory.builtin? c.f = none := by rw [builtin?, h.function_valueOf]; rfl
  have native : t.memory.isNative c.f = true := by rw [isNative, h.function_valueOf]; rfl
  rw [isExternalCall, builtin, native, Bool.or_true]

theorem isNativeCall (h : t.CallsNative c name n) (outside : c.external = true) :
    t.memory.isNativeCall c = true := by
  rw [Memory.isNativeCall, outside, isNative, h.function_valueOf]
  rfl

theorem real (h : t.CallsNative c name n) : t.ghostOf? c = none := by
  rw [ghostOf?, Ghosts.find?, h.function_valueOf]
  rfl

/-- A method stays one, whatever it is called on and whatever is passed to it. -/
theorem mono (h : t.CallsNative c name n) (t₁ : Tracker) (named : name ≠ "")
    (evolves : t.memory.heap.Evolves t₁.memory.heap) (base : Value) (args : List Value) (external : Bool) :
    t₁.CallsNative { c with external, base, args } name n := by
  obtain ⟨⟨name', native', builtin'⟩, function, native, builtin, same⟩ := evolves.function? h.function
  cases native
  cases builtin
  cases same named
  exact ⟨function, h.method⟩

/-- The hook before the call passes on the function. -/
theorem handed (h : t.CallsNative c name n) (before : callPre c t = (.ok q, t₁)) :
    q = { c with external := true, base := q.base, args := q.args } ∧
      (∃ id, t.memory.HandsOut c.base q.base id) ∧
      ∃ ids, t.memory.HandsCall (t.placed c) q ids ∧ t.memory.Opens c.site ids t₁.memory ∧
        t₁.memory.shadow.context = .unset := by
  obtain ⟨o, f⟩ := h.f_object
  have outside : (t.placed c).external = true := h.outside
  rcases callPre_cases (atRest_of_callPre before) c with ⟨q', t', run, hands⟩ | ⟨e, t', run, -⟩
  · rw [before] at run
    cases run
    cases hands with
    | ghost called leaves =>
      rw [h.real] at called
      cases called
    | call real hands opens context =>
      refine ⟨?_, ?_, _, hands, opens, context⟩
      all_goals
        generalize placed : t.placed c = p at hands outside
        cases hands with
        | internal inside outf =>
          rw [inside] at outside
          cases outside
        | function outside' plain outf outs =>
          subst placed
          rw [show (t.placed c).method = true from h.method] at plain
          cases plain
        | method outside' method outf outb outs =>
          subst placed
          first
            | exact ⟨_, outb⟩
            | cases outf.object o f
              rw [← outside]
              rfl
  · rw [before] at run
    cases run

end CallsNative

/-- The function is a method of the runtime that has the name, and it is called on the object. -/
structure CallsMethod (t : Tracker) (c : Call) (name : String) (n : Native) (id : ObjectId) : Prop where
  function : t.memory.heap.function? c.f = some { name, native := some n }
  method : c.method = true
  base : c.base = .object id

namespace CallsMethod

variable {t t₁ : Tracker} {c q : Call} {name : String} {n : Native} {id : ObjectId}

theorem native (h : t.CallsMethod c name n id) : t.CallsNative c name n := ⟨h.function, h.method⟩

/-- A method stays one, whatever is passed to it. -/
theorem mono (h : t.CallsMethod c name n id) (t₁ : Tracker) (named : name ≠ "")
    (evolves : t.memory.heap.Evolves t₁.memory.heap) (args : List Value) (external : Bool) :
    t₁.CallsMethod { c with external, args } name n id :=
  ⟨(h.native.mono t₁ named evolves c.base args external).function, h.method, h.base⟩

/-- The hook before the call passes on the function and the object. -/
theorem handed (h : t.CallsMethod c name n id) (before : callPre c t = (.ok q, t₁)) :
    q = { c with external := true, args := q.args } ∧
      ∃ ids, t.memory.HandsCall (t.placed c) q ids ∧ t.memory.Opens c.site ids t₁.memory ∧
        t₁.memory.shadow.context = .unset := by
  obtain ⟨passed, ⟨_, outb⟩, opened⟩ := h.native.handed before
  refine ⟨?_, opened⟩
  rw [← outb.object id h.base]
  exact passed

end CallsMethod

section Before

variable {t t₁ : Tracker} {c q : Call}

/-- The hook before a call of anything but a ghost function notes the call and takes shadows off. -/
theorem callPre_within_of {R : Memory → Memory → Prop} [IsPreorder Memory R]
    (same : ∀ {m m' : Memory}, m'.heap = m.heap → m.SameHandles m' → R m m')
    (opens : ∀ c native levels, Within R (openCall c native levels)) (real : t.ghostOf? c = none) :
    R t.memory (callPre c t).2.memory := by
  obtain ⟨t₀, t', logs, run, ended⟩ := callPre_run t c
  have real₀ : t₀.ghostOf? (t.placed c) = none := by
    rw [ghostOf?, logs.ghosts, logs.memory]
    exact real
  have memory : t'.memory = (callPreBody (t.placed c) (t.memory.isNativeCall (t.placed c))
      t₀).2.memory.ended := ended.memory
  rw [run, memory, ← logs.memory]
  have cleared (m : Memory) : R m m.ended := same rfl rfl
  refine trans_of R ?_ (cleared _)
  rcases checkCall_passes (t.placed c) t₀ with ⟨t₂, passed, marks⟩ | ⟨f, t₂, refused, marks⟩
  · refine trans_of R (same marks.memory.heap marks.memory.wraps) ?_
    rw [callPreBody_of_real passed (by rw [ghostOf?_of_marks marks, real₀])]
    exact opens _ _ _ t₂.memory
  · rw [callPreBody_of_refused refused]
    exact same marks.memory.heap marks.memory.wraps

theorem callPre_within {R : Memory → Memory → Prop} [IsPreorder Memory R] (admits : AdmitsStripping R)
    (real : t.ghostOf? c = none) : R t.memory (callPre c t).2.memory :=
  callPre_within_of admits.same admits.openCall real

theorem callPre_undresses (real : t.ghostOf? c = none) (before : callPre c t = (.ok q, t₁)) :
    t.memory.Undresses t₁.memory := by
  have run : (Hook.callPre c).run t = (.ok q.operands, t₁) := bind_apply_ok before
  have grows := ((Hook.callPre c).follows t).memory
  have handles := callPre_within admitsStripping_sameHandles real
  have contents := callPre_within admitsStripping_sameContents real
  rw [run] at grows
  rw [before] at handles contents
  refine ⟨grows, handles, contents, fun {P} lasting held => ?_⟩
  have lasts := Hook.lasts lasting (.callPre c) (t := t)
    (fun c' g tainted same called => by
      cases same
      rw [real] at called
      cases called)
    (fun d m does => nomatch does) held
  rwa [run] at lasts

/-- What an external function is given. -/
theorem callPre_args (real : t.ghostOf? c = none) (outside : t.memory.isExternalCall c = true)
    (before : callPre c t = (.ok q, t₁)) : q.args =
      ((t.settings.policies.policyFor t.memory.heap q.base).passing t.memory c.f c.args).give t.memory
        c.args := by
  obtain ⟨m₁, m₂, readies, handed⟩ := callPre_handsOver (atRest_of_callPre before) real outside before
  have prepared := keeps_prepareArguments (t.settings.policies.policyFor m₁.heap q.base) c.f c.args m₁
  rw [handed.prepared] at prepared
  have handles : t.memory.SameHandles m₁ := sameHandles_of_grows (callPre_undresses real before).handles
    readies.toGrows (prepared.toGrows.trans handed.grows)
  have args := congrArg Prod.fst handed.prepared
  rw [MemoryM.prepareArguments_fst, readies.heap, passing_congr handles readies.heap] at args
  have value : m₁.valueOf = t.memory.valueOf := funext (valueOf_of_wraps handles)
  refine args.symm.trans ?_
  simp only [Passing.give, value]

end Before

section After

variable {t t' : Tracker} {q c' : Call} {result r : Value} {levels : Levels} {m₀ m : Memory}

/-- What the hook after the call of a method does, in this order. -/
theorem closeCall_eq_ok (outside : q.external = true) (method : q.method = true)
    (closed : closeCall q result levels m₀ = (.ok (c', r), m)) :
    ∃ s args m₁ base m₂ f m₃, m₀.shadow.restoreFrame q.site = .ok s ∧
      MemoryM.restoreArguments levels (Memory.policyOf ⟨m₀.heap, s⟩ levels q.base) q.f q.args
        ⟨m₀.heap, s⟩ = (args, m₁) ∧
      MemoryM.wrap levels q.base m₁ = (base, m₂) ∧ MemoryM.wrap levels q.f m₂ = (f, m₃) ∧
      MemoryM.wrap levels result m₃ = (r, m) ∧ c' = { q with f, base, args } := by
  rcases restored : m₀.shadow.restoreFrame q.site with e | s
  · rw [closeCall_of_failed restored] at closed
    cases closed
  · obtain ⟨args, m₁, run₁⟩ : ∃ args m₁, MemoryM.restoreArguments levels
      (Memory.policyOf ⟨m₀.heap, s⟩ levels q.base) q.f q.args ⟨m₀.heap, s⟩ = (args, m₁) := ⟨_, _, rfl⟩
    obtain ⟨base, m₂, run₂⟩ : ∃ base m₂, MemoryM.wrap levels q.base m₁ = (base, m₂) := ⟨_, _, rfl⟩
    obtain ⟨f, m₃, run₃⟩ : ∃ f m₃, MemoryM.wrap levels q.f m₂ = (f, m₃) := ⟨_, _, rfl⟩
    obtain ⟨w, m₄, run₄⟩ : ∃ w m₄, MemoryM.wrap levels result m₃ = (w, m₄) := ⟨_, _, rfl⟩
    rw [closeCall_of_restored restored, rewrapCall_of_outside outside run₁,
      rewrapReceiver_of_method (c := { q with args }) method, bind_assoc, lift_bind_of run₂, pure_bind,
      rewrapFunction, lift_bind_of run₃, lift_bind_of run₄] at closed
    obtain ⟨⟨⟩, m₅, checked, returned⟩ := bind_eq_ok.mp closed
    have same := CheckedM.checkPending_snd "WInvokeFun" 0 m₄
    rw [checked] at same
    cases same
    cases returned
    exact ⟨s, args, m₁, base, m₂, f, m₃, rfl, run₁, run₂, run₃, run₄, rfl⟩

theorem heap_wrap_of_function (levels : Levels) {f : Value} {fn : Function}
    (function : m.heap.function? f = some fn) : (MemoryM.wrap levels f m).2.heap = m.heap := by
  rcases MemoryM.heap_wrap_cases levels f m with ⟨k, grain, o, values, rfl, -, held, -⟩ | ⟨same, -⟩
  · unfold Heap.function? at function
    unfold Heap.held? at held
    dsimp only [Value.object?] at function
    split at function
    · rename_i kind
      rw [kind] at held
      cases k <;> cases held
    · cases function
  · exact same

/-- What a map or a set holds suits it once it has been wrapped, whatever is wrapped later on. -/
theorem settles_of_wrap {m₁ m₂ m₃ : Memory} {id : ObjectId} {base : Value} (before : m₀.Redresses levels m₁)
    (wraps : m₁.shadow.frame.callType.skipsWrapping = false)
    (run : MemoryM.wrap levels (.object id) m₁ = (base, m₂)) (later : m₂.Redresses levels m₃)
    {k : Container} {values : List Value} (keyed : k ≠ .array)
    (held : m₀.heap.held? k id = some values) :
    ∃ values', m₃.heap.held? k id = some values' ∧ ∀ w ∈ values', (levels.grainOf k).Suits w := by
  obtain ⟨values₁, held₁, -⟩ := before.retains.held? keyed held
  obtain ⟨values₂, held₂, -, suits⟩ :=
    MemoryM.suits_wrap (levels.policyFor_of_held keyed held₁) held₁ wraps
  rw [run] at held₂
  refine ⟨values₂, ?_, suits⟩
  rw [Heap.held?, later.retains.kind_of_suits keyed held₂ suits]
  exact held₂

/-- A function is handed over as it is. -/
theorem isBareLiteral_of_function {h : Heap} {f : Value} {fn : Function} (function : h.function? f = some fn) :
    f.isBareLiteral = false := by
  cases f with
  | literal l => cases function
  | object o => rfl
  | shadow handle identity raw => rfl

/-- The arguments get their shadows back in the frame of the caller. -/
theorem redresses_reopened {caller : Frame} {below : List Frame} {s : ShadowState} {args : List Value}
    {policy : Policy} {m₁ : Memory} (saved : m₀.shadow.framesAt q.site = caller :: below)
    (restored : m₀.shadow.restoreFrame q.site = .ok s)
    (run : MemoryM.restoreArguments levels policy q.f q.args ⟨m₀.heap, s⟩ = (args, m₁)) :
    m₀.Redresses levels m₁ ∧ m₁.shadow.frame.callType = caller.callType := by
  obtain ⟨s', restored', frame, keeps, -⟩ := restoreFrame_ok saved
  rw [restored] at restored'
  cases restored'
  have first : m₀.Redresses levels ⟨m₀.heap, s⟩ := ⟨keeps.toGrows, quiet_restoreFrame restored,
    SameContents.retains fun _ _ _ _ _ => rfl⟩
  have stacked := MemoryM.stacks_restoreArguments levels policy q.f q.args ⟨m₀.heap, s⟩
  have quiet := MemoryM.quiet_restoreArguments levels policy q.f q.args ⟨m₀.heap, s⟩
  have retains := (admitsWrapping_retains levels).restoreArguments policy q.f q.args ⟨m₀.heap, s⟩
  rw [run] at quiet retains stacked
  exact ⟨first.trans ⟨stacked.toGrows, quiet, retains⟩, by rw [stacked.callType, frame]⟩

/-- The hook after the call of a method puts shadows on, on what the object holds as well, and on the
result last. -/
theorem redresses_closeCall {id : ObjectId} {caller : Frame} {below : List Frame}
    (outside : q.external = true) (method : q.method = true) (base : q.base = .object id)
    {fn : Function} (function : m₀.heap.function? q.f = some fn)
    (saved : m₀.shadow.framesAt q.site = caller :: below)
    (wraps : caller.callType.skipsWrapping = false)
    (closed : closeCall q result levels m₀ = (.ok (c', r), m)) :
    ∃ m₃, m₀.Redresses levels m₃ ∧
      (∀ {k : Container} {values : List Value}, k ≠ .array → m₀.heap.held? k id = some values →
        ∃ values', m₃.heap.held? k id = some values' ∧ ∀ w ∈ values', (levels.grainOf k).Suits w) ∧
      (q.args = [] → ∀ o, o ≠ id → m₃.heap.get o = m₀.heap.get o) ∧
      m₃.shadow.frame.callType = caller.callType ∧
      MemoryM.wrap levels result m₃ = (r, m) ∧ c' = { q with args := c'.args } := by
  obtain ⟨s, args, m₁, base', m₂, f, m₃, restored, run₁, run₂, run₃, wrapped, rfl⟩ :=
    closeCall_eq_ok outside method closed
  obtain ⟨before, callType₁⟩ := redresses_reopened saved restored run₁
  have third := redresses_wrap levels q.base m₁
  have fourth := redresses_wrap levels q.f m₂
  have callType₂ := (MemoryM.stacks_wrap levels q.base m₁).callType
  have callType₃ := (MemoryM.stacks_wrap levels q.f m₂).callType
  have same₂ := MemoryM.wrap_of_not_bare levels (v := q.base) (by rw [base]; rfl) m₁
  have same₃ := MemoryM.wrap_of_not_bare levels (isBareLiteral_of_function function) m₂
  rw [run₂] at third callType₂ same₂
  rw [run₃] at fourth callType₃ same₃
  refine ⟨m₃, before.trans (third.trans fourth), fun keyed held => ?_, ?_, ?_, wrapped, ?_⟩
  · rw [base] at run₂
    exact settles_of_wrap before (by rw [callType₁, wraps]) run₂ fourth keyed held
  · intro empty o other
    have unchanged : m₁ = ⟨m₀.heap, s⟩ := by
      rw [empty, MemoryM.restoreArguments_nil] at run₁
      exact (Prod.mk.inj run₁).2.symm
    obtain ⟨fn', function', -⟩ := (before.trans third).evolves.function? function
    have heap₃ := heap_wrap_of_function levels function'
    have heap₂ := MemoryM.get_wrap_of_ne levels m₁ other
    rw [run₃] at heap₃
    rw [← base, run₂] at heap₂
    rw [heap₃, heap₂, unchanged]
  · rw [callType₃, callType₂, callType₁]
  · rw [show f = q.f from same₃, show base' = q.base from same₂]

/-- After the call of a native function that is not treated specially, the rule for it applies. -/
theorem callPost_of_native (real : t.ghostOf? q = none) (native : t.memory.isNativeCall q = true)
    (plain : t.memory.builtin? q.f = none) (after : callPost q result t = (.ok (c', r), t')) :
    ∃ m, closeCall q result t.settings.policies t.memory = (.ok (c', r), m) ∧
      t'.memory = (propagateCall c' r t.settings.policies m).2.ended := by
  obtain ⟨t₀, t₁, logs, run, memory⟩ := callPost_run q result t
  rw [after] at run
  obtain ⟨returned, rfl⟩ := Prod.mk.inj run
  have real₀ : t₀.ghostOf? q = none := by
    rw [ghostOf?, logs.ghosts, logs.memory]
    exact real
  have plain₀ : t₀.memory.builtin? q.f = none := by rw [logs.memory, plain]
  have launder := calm_launderSinks (R := Eq) q result
  obtain ⟨t₂, run₂, laundered⟩ := succeeds_if launder.within (raises_launderSinks q result)
    ((q.external || t₀.settings.aggressiveSinkPropagation) = true) t₀
  rcases closed : closeCall q result t₀.settings.policies t₀.memory with ⟨e | ⟨c₂, r₂⟩, m⟩
  all_goals
    have step : HookM.onMemory (closeCall q result t₀.settings.policies) t₂ =
        ((closeCall q result t₀.settings.policies t₀.memory).1, { t₂ with memory := m }) := by
      rw [HookM.onMemory_apply, ← laundered.memory, closed]
    rw [closed] at step
  · rw [callPostBody, get_bind_apply, real₀, if_neg (by simp)] at returned
    dsimp only at returned
    rw [if_bind_apply run₂, bind_apply_error step] at returned
    cases returned
  · have body : callPostBody q result (t.memory.isNativeCall q) t₀ = (.ok (c₂, r₂),
        { t₂ with memory := (propagateCall c₂ r₂ t₀.settings.policies m).2 }) := by
      rw [callPostBody_eq, get_bind_apply, real₀, if_neg (by simp)]
      dsimp only
      rw [if_bind_apply run₂, bind_apply_ok step, native, concludeCall, if_pos rfl, plain₀]
      rfl
    rw [body] at returned memory
    cases returned
    rw [logs.settings, logs.memory] at closed
    refine ⟨m, closed, ?_⟩
    rw [memory, logs.settings]

end After

/-- What a complete call of a method does. The hook before it takes shadows off, the method runs on the
object, the hook after it puts shadows on, and on the result last, and then the rule for the method
applies. -/
structure MethodRun (t : Tracker) (c : Call) (n : Native) (id : ObjectId) (c' : Call) (r : Value)
    (t' : Tracker) (given : List Value) (result : Value) (m₁ m₂ m₃ m : Memory) : Prop where
  undresses : t.memory.Undresses m₁
  given_eq : given = ((t.settings.policies.policyFor t.memory.heap (.object id)).passing t.memory c.f
    c.args).give t.memory c.args
  ran : n.run m₁.heap (.object id) given = .ok (result, m₂.heap)
  shadow : m₂.shadow = m₁.shadow
  redresses : m₂.Redresses t.settings.policies m₃
  settles : ∀ {k : Container} {values : List Value}, k ≠ .array → m₂.heap.held? k id = some values →
    ∃ values', m₃.heap.held? k id = some values' ∧
      ∀ w ∈ values', (t.settings.policies.grainOf k).Suits w
  others : c.args = [] → ∀ o, o ≠ id → m₃.heap.get o = m₂.heap.get o
  callType : m₃.shadow.frame.callType = t.memory.shadow.frame.callType
  wrapped : MemoryM.wrap t.settings.policies result m₃ = (r, m)
  rule : t'.memory = (propagateCall c' r t.settings.policies m).2.ended
  call : c' = { c with external := true, args := c'.args }
  args : List.Forall₂ (t.memory.ComesBack t'.memory) c.args c'.args
  settings : t'.settings = t.settings
  rest : t'.memory.shadow.AtRest
  sameFrames : t.memory.SameFrames t'.memory

theorem marks_propagateCall {c : Call} {r : Value} {levels : Levels} {m : Memory} {k : Container}
    {grain : Grain} (policy : m.policyOf levels c.base = .container k grain) :
    m.Marks (propagateCall c r levels m).2 := by
  unfold propagateCall
  rw [bind_apply, get_apply]
  dsimp only
  split
  · rw [policy]
    exact ContainerRule.marks_call levels k grain _ m
  · exact refl_of Marks m

namespace MethodRun

variable {t t' : Tracker} {c c' : Call} {name : String} {n : Native} {id : ObjectId} {r result : Value}
  {given : List Value} {m₁ m₂ m₃ m : Memory}

section

variable (h : MethodRun t c n id c' r t' given result m₁ m₂ m₃ m)
include h

theorem toResult : m₂.Redresses t.settings.policies m := by
  have last := redresses_wrap t.settings.policies result m₃
  rw [h.wrapped] at last
  exact h.redresses.trans last

theorem grows : t.memory.Grows m₁ ∧ m₁.Grows m := by
  have evolves := (n.run_confined _ _ _ _ _ h.ran).1
  have ran : m₁.Grows m₂ :=
    ⟨evolves, fun _ _ known => by rwa [h.shadow], by rw [h.shadow], fun bounded => by rwa [h.shadow]⟩
  exact ⟨h.undresses.toGrows, ran.trans h.toResult.toGrows⟩

/-- What neither notes nor bookkeeping touch lasts up to the rule. -/
theorem lasts {P : Memory → Prop} (lasting : Lasting P) (before : P t.memory) : P m := by
  refine lasting.quiet h.toResult.quiet (lasting.quiet ?_ (h.undresses.lasts lasting before))
  exact ⟨by rw [h.shadow], by rw [h.shadow]⟩

theorem functionName (calls : t.CallsMethod c name n id) (named : name ≠ "") :
    m.functionName c'.f = name := by
  have f : c'.f = c.f := by rw [h.call]
  obtain ⟨o, object⟩ := calls.native.f_object
  have value : m.valueOf c.f = c.f := by rw [object]; rfl
  obtain ⟨fn, function, -, -, same⟩ := (h.grows.1.trans h.grows.2).evolves.function? calls.function
  rw [Memory.functionName, f, value, function]
  dsimp only
  rw [same named, if_neg named]

theorem policyOf (calls : t.CallsMethod c name n id) {k : Container} {values : List Value}
    (keyed : k ≠ .array) (held : m₂.heap.held? k id = some values) :
    m.policyOf t.settings.policies c'.base = .container k (t.settings.policies.grainOf k) := by
  have base : c'.base = .object id := by rw [h.call]; exact calls.base
  obtain ⟨values', held', -⟩ := h.toResult.retains.held? keyed held
  rw [base]
  exact t.settings.policies.policyFor_of_held keyed held'

/-- The rule for a method of maps or sets leaves the heap and the handles alone. -/
theorem unchanged (calls : t.CallsMethod c name n id) {k : Container} {values : List Value}
    (keyed : k ≠ .array) (held : m₂.heap.held? k id = some values) :
    t'.memory.heap = m.heap ∧ t'.memory.shadow.wraps = m.shadow.wraps := by
  have marks := marks_propagateCall (r := r) (h.policyOf calls keyed held)
  rw [h.rule]
  exact ⟨marks.heap, marks.wraps⟩

/-- What the other maps and sets hold, and what suits the object, stays after the method has run. -/
theorem retains (calls : t.CallsMethod c name n id) {k : Container} {values : List Value}
    (keyed : k ≠ .array) (held : m₂.heap.held? k id = some values) :
    m₂.Retains t.settings.policies t'.memory := by
  refine trans_of (Retains _) h.toResult.retains (SameContents.retains fun _ _ _ _ _ => ?_)
  rw [(h.unchanged calls keyed held).1]

/-- After the call the object holds only what suits it. -/
theorem settled (calls : t.CallsMethod c name n id) {k : Container} {values : List Value}
    (keyed : k ≠ .array) (held : m₂.heap.held? k id = some values) :
    ∃ values', t'.memory.heap.held? k id = some values' ∧
      ∀ w ∈ values', (t.settings.policies.grainOf k).Suits w := by
  obtain ⟨values', held', suits⟩ := h.settles keyed held
  have last := MemoryM.retains_wrap t.settings.policies result m₃
  rw [h.wrapped] at last
  refine ⟨values', ?_, suits⟩
  rw [(h.unchanged calls keyed held).1, Heap.held?, last.kind_of_suits keyed held' suits]
  exact held'

/-- A shadow that is known stays known. -/
theorem known (calls : t.CallsMethod c name n id) {k : Container} {values : List Value}
    (keyed : k ≠ .array) (held : m₂.heap.held? k id = some values) {v : Value} {x : Identity × Literal}
    (known : t.memory.shadow.lookup? v = some x) : t'.memory.shadow.lookup? v = some x := by
  rw [lookup?_of_wraps (h.unchanged calls keyed held).2]
  exact (h.grows.1.trans h.grows.2).lookup? known

/-- The rule for a method of maps or sets applies, unless the method returns nothing. -/
theorem rule_of_model (calls : t.CallsMethod c name n id) (named : name ≠ "") {k : Container}
    {values : List Value} (keyed : k ≠ .array) (held : m₂.heap.held? k id = some values)
    {model : NativeCall → MemoryM Unit}
    (modelled : ContainerRule.model? k (t.settings.policies.grainOf k) name = some model) :
    t'.memory = Memory.ended (if (m.valueOf r).isUndefined then m else
      (model ⟨c'.f, c'.base, c'.args, r⟩ m).2) := by
  rw [h.rule, propagateCall, bind_apply, get_apply]
  dsimp only
  rw [h.policyOf calls keyed held]
  congr 1
  by_cases undefined : (m.valueOf r).isUndefined = true
  · rw [undefined]
    rfl
  · rw [if_neg undefined, if_pos (by simpa using undefined)]
    show (ContainerRule.call t.settings.policies k (t.settings.policies.grainOf k)
      ⟨c'.f, c'.base, c'.args, r⟩ m).2 = _
    unfold ContainerRule.call
    rw [bind_apply, get_apply]
    dsimp only
    rw [h.functionName calls named, modelled]

/-- Where the rule does nothing, no taint is forgotten. -/
theorem holds_of_model (calls : t.CallsMethod c name n id) (named : name ≠ "") {k : Container}
    {values : List Value} (keyed : k ≠ .array) (held : m₂.heap.held? k id = some values)
    (modelled : ContainerRule.model? k (t.settings.policies.grainOf k) name = some fun _ => return)
    {key : TaintKey} (holds : t.memory.Holds key) : t'.memory.Holds key := by
  have lasts : m.Holds key := h.lasts (lasting_holds key) holds
  rw [h.rule_of_model calls named keyed held modelled]
  split <;> exact lasts

/-- A literal among the arguments that was tainted is tainted when the rule is applied. -/
theorem tainted_arg (calls : t.CallsMethod c name n id) {k : Container} {values : List Value}
    (keyed : k ≠ .array) (held : m₂.heap.held? k id = some values) {v : Value} {identity : Identity}
    {raw : Literal} (mem : v ∈ c.args) (known : t.memory.shadow.lookup? v = some (identity, raw))
    (tainted : t.memory.isTainted v = true) : ∃ w ∈ c'.args, m.isTainted w = true := by
  obtain ⟨w, mem', back⟩ : ∃ w ∈ c'.args, t.memory.ComesBack t'.memory v w := by
    obtain ⟨i, bound, rfl⟩ := List.mem_iff_getElem.mp mem
    have bound' : i < c'.args.length := by rwa [← h.args.length_eq]
    exact ⟨c'.args[i], List.getElem_mem bound', h.args.get bound bound'⟩
  refine ⟨w, mem', ?_⟩
  have known' := (back.shadow identity raw known).1
  rw [lookup?_of_wraps (h.unchanged calls keyed held).2] at known'
  rw [isTainted_of_lookup known, Option.any_eq_true] at tainted
  obtain ⟨e, found, bit⟩ : m.Holds (.identity identity) := h.lasts (lasting_holds _) tainted
  rw [isTainted_of_lookup known', found]
  exact bit

end

end MethodRun

section Running

variable {t t' : Tracker} {c c' : Call} {name : String} {n : Native} {id : ObjectId} {r : Value}

/-- Between the hooks the method runs. -/
theorem perform_native (calls : t.CallsNative c name n) : perform c none t =
    match n.run t.memory.heap c.base c.args with
    | .error e => (.error (.native e), t)
    | .ok (v, heap) => (.ok v, { t with memory := { t.memory with heap } }) := by
  have native : t.memory.heap.native? c.f = .ok n := by rw [Heap.native?, calls.function]
  unfold perform runNative
  dsimp only
  rw [get_bind_apply, Heap.invoke, native]
  dsimp only
  rcases n.run t.memory.heap c.base c.args with e | ⟨v, heap⟩ <;> rfl

theorem perform_apply (calls : t.CallsMethod c name n id) : perform c none t =
    match n.run t.memory.heap (.object id) c.args with
    | .error e => (.error (.native e), t)
    | .ok (v, heap) => (.ok v, { t with memory := { t.memory with heap } }) := by
  rw [perform_native calls.native, calls.base]

/-- The call that the hook before it has prepared is one of the method as well. -/
theorem callsMethod_of_callPre {t₁ : Tracker} {q : Call} (calls : t.CallsMethod c name n id)
    (named : name ≠ "") (before : callPre c t = (.ok q, t₁)) : t₁.CallsMethod q name n id := by
  rw [(calls.handed before).1]
  exact calls.mono t₁ named (callPre_undresses calls.native.real before).evolves _ _

/-- After the method has run, the tracker follows the one before the call. -/
theorem follows_of_ran {t₁ : Tracker} {q : Call} {this v : Value} {heap : Heap}
    (before : callPre c t = (.ok q, t₁)) (ran : n.run t₁.memory.heap this q.args = .ok (v, heap)) :
    Follows Grows t { t₁ with memory := { t₁.memory with heap } } := by
  have follows := (Hook.callPre c).follows t
  rw [show (Hook.callPre c).run t = (.ok q.operands, t₁) from bind_apply_ok before] at follows
  exact trans_of (Follows Grows) follows (follows_host (n.run_confined _ _ _ _ _ ran).1)

/-- The steps of a complete call of a native function: the hook before it leaves `t₁` and the prepared call
`q`, the function returns `v` and leaves `heap`, the hook after it puts shadows on, which leaves `m`, and then
the rule for the function applies. -/
structure NativeRun (t : Tracker) (c : Call) (name : String) (n : Native) (c' : Call) (r : Value)
    (t' : Tracker) (q : Call) (t₁ : Tracker) (v : Value) (heap : Heap) (m : Memory) : Prop where
  before : callPre c t = (.ok q, t₁)
  passed : q = { c with external := true, base := q.base, args := q.args }
  ran : n.run t₁.memory.heap q.base q.args = .ok (v, heap)
  function : CallsNative { t₁ with memory := { t₁.memory with heap } } q name n
  follows : Follows Grows t { t₁ with memory := { t₁.memory with heap } }
  closed : closeCall q v t.settings.policies ⟨heap, t₁.memory.shadow⟩ = (.ok (c', r), m)
  rule : t'.memory = (propagateCall c' r t.settings.policies m).2.ended
  settings : t'.settings = t.settings
  rest : t'.memory.shadow.AtRest
  sameFrames : t.memory.SameFrames t'.memory
  back : t.memory.shadow.frame.callType.skipsWrapping = false → t.memory.CallComesBack t'.memory c c'

/-- A complete call of a native function that succeeds takes these steps. -/
theorem nativeRun_of_invoke (calls : t.CallsNative c name n) (named : name ≠ "")
    (run : invoke c none t = (.ok (c', r), t')) :
    ∃ q t₁ v heap m, NativeRun t c name n c' r t' q t₁ v heap m := by
  obtain ⟨q, t₁, before, run⟩ := bind_eq_ok.mp run
  obtain ⟨v, t₂, performed, after⟩ := bind_eq_ok.mp run
  obtain ⟨passed, -, ids, hands, opens, context⟩ := calls.handed before
  have calls₁ : t₁.CallsNative q name n := by
    rw [passed]
    exact calls.mono t₁ named (callPre_undresses calls.real before).evolves _ _ _
  obtain ⟨heap, ran, rfl⟩ : ∃ heap, n.run t₁.memory.heap q.base q.args = .ok (v, heap) ∧
      t₂ = { t₁ with memory := { t₁.memory with heap } } := by
    rw [perform_native calls₁] at performed
    rcases ran : n.run t₁.memory.heap q.base q.args with e | ⟨v, heap⟩ <;> rw [ran] at performed
    · cases performed
    · cases performed
      exact ⟨heap, rfl, rfl⟩
  have follows := follows_of_ran before ran
  have calls₂ : CallsNative { t₁ with memory := { t₁.memory with heap } } q name n :=
    calls₁.mono _ named (n.run_confined _ _ _ _ _ ran).1 q.base q.args q.external
  obtain ⟨c₂, w, t₃, closed, rest, sameFrames, back⟩ := callPost_of_none hands opens follows
    ⟨context, rfl, fun _ => rfl, fun _ => rfl⟩ calls₂.real v
  rw [after] at closed
  cases closed
  obtain ⟨m, closed, rule⟩ := callPost_of_native calls₂.real (calls₂.isNativeCall (by rw [passed]))
    (by rw [builtin?, calls₂.function_valueOf]; rfl) after
  have settings : t₁.settings = t.settings := follows.settings
  rw [show (Tracker.settings _) = t.settings from settings] at closed rule
  have settings' : t'.settings = t₁.settings := by
    have follows := (Hook.callPost q v).follows { t₁ with memory := { t₁.memory with heap } }
    rw [show (Hook.callPost q v).run { t₁ with memory := { t₁.memory with heap } } =
      (.ok (r :: c'.operands), t') from bind_apply_ok after] at follows
    exact follows.settings
  exact ⟨q, t₁, v, heap, m, before, passed, ran, calls₂, follows, closed, rule, settings'.trans settings, rest,
    sameFrames, fun wraps => (back wraps).1⟩

namespace NativeRun

variable {q : Call} {v : Value} {heap : Heap} {m : Memory}
  (h : NativeRun t c name n c' r t' q t₁ v heap m) (named : name ≠ "") (evolves : heap.Evolves m.heap)
  (same : c'.f = q.f)
include h named evolves same

/-- The function is still what it was when the rule for it applies. -/
theorem function_valueOf : m.heap.function? (m.valueOf c'.f) = some { name, native := some n } := by
  rw [same]
  exact (h.function.mono { t₁ with memory := m } named evolves q.base q.args q.external).function_valueOf

theorem functionName : m.functionName c'.f = name := by
  rw [Memory.functionName, h.function_valueOf named evolves same]
  exact if_neg named

end NativeRun

/-- A complete call of a method that succeeds, from code in which literals get shadows. -/
theorem methodRun_of_invoke (calls : t.CallsMethod c name n id) (named : name ≠ "")
    (wraps : t.memory.shadow.frame.callType.skipsWrapping = false)
    (run : invoke c none t = (.ok (c', r), t')) :
    ∃ given result m₁ m₂ m₃ m, MethodRun t c n id c' r t' given result m₁ m₂ m₃ m := by
  obtain ⟨q, t₁, result, heap, m, h⟩ := nativeRun_of_invoke calls.native named run
  obtain ⟨passed, ids, hands, opens, context⟩ := calls.handed h.before
  have base : q.base = .object id := by rw [passed]; exact calls.base
  have site : q.site = c.site := by rw [passed]
  -- the frame of the caller is still the one that was saved last
  obtain ⟨trees, frames⟩ := opens.frames
  have saved := frames q.site
  rw [site, if_pos rfl, ← site] at saved
  obtain ⟨m₃, redresses, settles, others, callType, wrapped, call⟩ :=
    redresses_closeCall (by rw [passed]) h.function.method base h.function.function saved wraps h.closed
  have given_eq := callPre_args calls.native.real calls.native.outside h.before
  rw [base] at given_eq
  refine ⟨q.args, result, t₁.memory, ⟨heap, t₁.memory.shadow⟩, m₃, m, ?_⟩
  exact {
    undresses := callPre_undresses calls.native.real h.before
    ran := by rw [← base, h.ran]
    given_eq, redresses, settles, callType, wrapped
    shadow := rfl
    others := fun empty => others (by rw [given_eq, empty, Passing.give_nil])
    call := by rw [call, passed]
    rule := h.rule
    args := (h.back wraps).args
    settings := h.settings
    rest := h.rest
    sameFrames := h.sameFrames }

/-- A call without arguments reaches no sink. -/
theorem checkCall_of_nil (empty : c.args = []) (t : Tracker) : (checkCall c t).1 = .ok () := by
  cases c
  cases empty
  rfl

theorem callPre_of_nil (rest : t.memory.shadow.AtRest) (real : t.ghostOf? c = none) (empty : c.args = []) :
    ∃ q t₁, callPre c t = (.ok q, t₁) := by
  obtain ⟨t₀, t', logs, run, -⟩ := callPre_run t c
  rcases checkCall_passes (t.placed c) t₀ with ⟨t₂, passed, marks⟩ | ⟨f, t₂, refused, -⟩
  · have rest₂ : t₂.memory.shadow.AtRest := by
      unfold ShadowState.AtRest
      rw [marks.memory.context, marks.memory.frame, logs.memory]
      exact rest
    have real₂ : t₂.ghostOf? (t.placed c) = none := by
      rw [ghostOf?_of_marks marks, ghostOf?, logs.ghosts, logs.memory]
      exact real
    obtain ⟨q, ids, m', opened, -⟩ := openCall_ok rest₂ (t.placed c) (t.memory.isNativeCall (t.placed c))
      t₂.settings.policies
    have body : (callPreBody (t.placed c) (t.memory.isNativeCall (t.placed c)) t₀).1 = .ok q := by
      rw [callPreBody_of_real passed real₂, HookM.onMemory_apply, opened]
    rw [body] at run
    exact ⟨q, t', run⟩
  · have passed := checkCall_of_nil (c := t.placed c) empty t₀
    rw [refused] at passed
    cases passed

/-- At rest a call of a method without arguments succeeds, if the method does. -/
theorem invoke_of_runs (rest : t.memory.shadow.AtRest) (calls : t.CallsMethod c name n id)
    (named : name ≠ "") (empty : c.args = [])
    (runs : ∀ m, t.memory.Undresses m →
      ∃ v heap, n.run m.heap (.object id) [] = .ok (v, heap)) :
    ∃ c' r t', invoke c none t = (.ok (c', r), t') := by
  obtain ⟨q, t₁, before⟩ := callPre_of_nil rest calls.native.real empty
  obtain ⟨passed, ids, hands, opens, context⟩ := calls.handed before
  have calls₁ := callsMethod_of_callPre calls named before
  have given : q.args = [] := by
    rw [callPre_args calls.native.real calls.native.outside before, empty, Passing.give_nil]
  obtain ⟨v, heap, ran⟩ := runs t₁.memory (callPre_undresses calls.native.real before)
  rw [← given] at ran
  have calls₂ : CallsMethod { t₁ with memory := { t₁.memory with heap } } q name n id :=
    calls₁.mono { t₁ with memory := { t₁.memory with heap } } named
      (n.run_confined _ _ _ _ _ ran).1 q.args q.external
  obtain ⟨c', r, t', after, -⟩ := callPost_of_none hands opens (follows_of_ran before ran)
    ⟨context, rfl, fun _ => rfl, fun _ => rfl⟩ calls₂.native.real v
  refine ⟨c', r, t', ?_⟩
  unfold invoke
  rw [bind_apply_ok before, bind_apply_ok (by rw [perform_apply calls₁, ran]), after]

/-- The tracker after a complete call of a native function. -/
def after (c : Call) (t : Tracker) : Tracker := (invoke c none t).2

theorem invoke_of_isOk (ok : (invoke c none t).1.isOk = true) :
    ∃ c' r, invoke c none t = (.ok (c', r), after c t) := by
  rcases run : invoke c none t with ⟨e | ⟨c', r⟩, t'⟩
  · rw [run] at ok
    cases ok
  · exact ⟨c', r, by rw [after, run]⟩

end Running

end Tracker

end ShadowTaint
