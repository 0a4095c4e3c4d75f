import ShadowTaint.Proofs.StringCalls
/-!
# Complete calls of methods of arrays

A method of arrays gets its arguments without shadows where arrays are tracked as a whole, and as they are
where arrays are tracked element by element. After it has returned, arguments and array have their shadows
back, the result is wrapped, and then the rule for the method applies. Objects keep their tags all the time,
so it is the rule of the policy that the array had before the call.

## Main definitions

- `Memory.SameTags`: objects have the tags that they had.
- `Memory.KeepsShadows`: shadows in arrays stay in their places.
- `Tracker.ArrayRun`: what a complete call of a method of arrays does.

## Main statements

- `Levels.policyFor_of_tags`: an object keeps its policy.
- `Tracker.arrayRun_of_invoke`: a call that succeeds is such a call.
-/

namespace ShadowTaint

open Memory Tracker

namespace Heap

theorem held?_array_iff {h : Heap} {id : ObjectId} {elements : List Value} :
    h.held? .array id = some elements ↔ h.elements? (.object id) = some elements := by
  rw [elements?_eq_some, held?]
  constructor
  · intro held
    rcases kind : (h.get id).kind <;> rw [kind] at held <;> cases held
    rfl
  · intro kind
    rw [kind]
    rfl

theorem importTag?_modify (h : Heap) (id : ObjectId) {f : HeapObject → HeapObject}
    (same : ∀ o, (f o).importTag = o.importTag) (v : Value) :
    (h.modify id f).importTag? v = h.importTag? v := by
  have tag (o : ObjectId) : ((h.modify id f).get o).importTag = (h.get o).importTag := by
    by_cases self : o = id
    · subst self
      by_cases allocated : o < h.objects.size
      · rw [get_modify_self allocated, same]
      · have beyond := Nat.le_of_not_lt allocated
        rw [get_of_size_le h beyond, get_of_size_le _ (by rwa [size_modify])]
    · rw [get_modify_ne h self]
  unfold importTag?
  simp only [tag]

theorem importTag?_setProperty (h : Heap) (id : ObjectId) (key : String) (w v : Value) :
    (h.setProperty id key w).importTag? v = h.importTag? v := by
  refine h.importTag?_modify id (fun o => ?_) v
  unfold HeapObject.storeProperty
  split
  · split <;> rfl
  · rfl

theorem importTag?_setElements (h : Heap) (w : Value) (elements : List Value) (v : Value) :
    (h.setElements w elements).importTag? v = h.importTag? v := by
  unfold setElements
  split
  · rfl
  · split
    · exact h.importTag?_modify _ (f := fun o => { o with kind := .array elements }) (fun _ => rfl) v
    · rfl

end Heap

namespace Memory

/-- Objects have the tags that they had. -/
def SameTags (m m' : Memory) : Prop := ∀ v, m'.heap.importTag? v = m.heap.importTag? v

instance : IsPreorder Memory SameTags where
  refl _ _ := rfl
  trans _ _ _ first second v := (second v).trans (first v)

theorem admitsStripping_sameTags : AdmitsStripping SameTags where
  same heap _ _ := by rw [heap]
  property id key w m := m.heap.importTag?_setProperty id key w

theorem admitsWrapping_sameTags (levels : Levels) : AdmitsWrapping levels SameTags where
  toAdmitsStripping := admitsStripping_sameTags
  wrap v m u := by
    rcases MemoryM.heap_wrap_cases levels v m with ⟨c, grain, id, values, -, -, -, heap⟩ | ⟨same, -⟩
    · rw [heap, Heap.importTag?_setHeld]
    · rw [same]

/-- Arrays that hold no bare literals hold the same. -/
def KeepsShadows (m m' : Memory) : Prop :=
  ∀ id elements, (∀ v ∈ elements, v.isBareLiteral = false) → m.heap.held? .array id = some elements →
    m'.heap.held? .array id = some elements

instance : IsPreorder Memory KeepsShadows where
  refl _ _ _ _ held := held
  trans _ _ _ first second id elements suits held := second id elements suits (first id elements suits held)

end Memory

/-- An object keeps its policy as long as it keeps its tag. -/
theorem Levels.policyFor_of_tags (levels : Levels) {h h' : Heap} {id : ObjectId} (evolves : h.Evolves h')
    (tags : ∀ v, h'.importTag? v = h.importTag? v) (allocated : id < h.objects.size) :
    levels.policyFor h' (.object id) = levels.policyFor h (.object id) := by
  rw [policyFor, policyFor, ValueKind.of_evolves evolves (fun o same => ?_) (tags _)]
  cases same
  exact allocated

/-- What has the policy of a container lies on the heap. -/
theorem Levels.allocated_of_policyFor (levels : Levels) {h : Heap} {id : ObjectId} {c : Container}
    {grain : Grain} (policy : levels.policyFor h (.object id) = .container c grain) :
    id < h.objects.size := by
  refine Nat.lt_of_not_le fun beyond => ?_
  have missing : ValueKind.of h (.object id) = .object := by
    have plain : h.get id = default := h.get_of_size_le beyond
    have lower : ValueKind.ofName (Text.toLower "Object") = .object := by decide +kernel
    simp only [ValueKind.of, Value.raw, ValueKind.ofImport?, Heap.importTag?, Heap.constructorName,
      Value.object?, Option.bind_some, plain]
    exact lower
  rw [policyFor, missing] at policy
  unfold Levels.resolve at policy
  generalize levels.precision .object = level at policy
  cases level <;> cases policy

namespace MemoryM

variable {levels : Levels} {m m₁ : Memory}

/-- Where arrays are tracked element by element, wrapping leaves the shadows in them where they are. -/
theorem keepsShadows_wrap (precise : levels.grainOf .array = .precise) (v : Value) :
    Within KeepsShadows (wrap levels v) := by
  intro m id elements suits held
  rcases heap_wrap_cases levels v m with ⟨c, grain, o, values, rfl, policy, held', heap⟩ | ⟨same, -⟩
  · by_cases self : id = o
    · subst self
      obtain ⟨rfl, rfl⟩ := ObjectKind.held?_inj held held'
      obtain rfl : grain = .precise := (grain_of_array policy).trans precise
      have kept := keeps_mapM_hold .precise elements m
      rw [heap, Heap.held?_setHeld held kept.length_eq.symm, kept.eq_of_suits suits]
    · rw [heap, Heap.held?_setHeld_ne self, held]
  · rw [same, held]

theorem keepsShadows_mapLastFirst (precise : levels.grainOf .array = .precise) (vs : List Value) :
    Within KeepsShadows (mapLastFirst (wrap levels) vs) :=
  within_mapLastFirst (keepsShadows_wrap precise) vs

/-- What is reserved for arguments that are handed over as they are. -/
theorem reserves_forM (args : List Value) (m : Memory) : ∃ ids, List.Forall₂ m.Reserves args ids ∧
    (args.forM reserve m).2.shadow.frame.reserved = ids.reverse ++ m.shadow.frame.reserved := by
  induction args generalizing m with
  | nil => exact ⟨[], .nil, rfl⟩
  | cons v rest ih =>
    have handles : m.SameHandles (reserve v m).2 := admitsStripping_sameHandles.reserve v m
    obtain ⟨_, -, stacked⟩ := stacks_reserve v m
    obtain ⟨ids, tail, reserved⟩ := ih (reserve v m).2
    have top : (reserve v m).2.shadow.frame.reserved = (identityOf v m).1 :: m.shadow.frame.reserved := by
      have frame := (spreads_identityOf v m).frame
      show (identityOf v m).1 :: (identityOf v m).2.shadow.frame.reserved = _
      rw [frame]
    refine ⟨(identityOf v m).1 :: ids, .cons (reserves_identityOf v m)
      (tail.imp fun _ _ h => h.mono handles stacked.toGrows), ?_⟩
    rw [List.reverse_cons, List.append_assoc, List.singleton_append, ← top]
    exact reserved

/-- A value that was handed over as it is comes back. -/
theorem answers_wrapped {v : Value} {id : Identity} {rest : List Identity} (tracks : m.Tracks v)
    (reserves : m.Reserves v id) (grows : m.Grows m₁) (reserved : m₁.shadow.frame.reserved = id :: rest)
    (wraps : m₁.shadow.frame.callType.skipsWrapping = false) :
    m.Answers (wrap levels v m₁).2 v (wrap levels v m₁).1 := by
  cases v with
  | literal raw => exact answers_wrap levels reserves reserved wraps
  | object o => exact answers_wrap levels reserves reserved wraps
  | shadow handle identity raw =>
    obtain bare | ⟨⟨own, raw'⟩, known⟩ := tracks
    · cases bare
    have value := ShadowState.valueOf_of_lookup known
    have later := grows.trans (stacks_wrap levels (.shadow handle identity raw) m₁).toGrows
    rw [wrap_of_not_bare levels rfl]
    refine ⟨fun o object => ?_, fun raw'' literal => ?_⟩
    · rw [Memory.valueOf, value] at object
      cases object
    · rw [Memory.valueOf, value] at literal
      cases literal
      exact ⟨own, later.lookup? known, .inl known⟩

end MemoryM

/-- The arguments of a call that were not stripped come back. -/
theorem Tracker.restoresArguments_wrapped {m₀ m₁ : Memory} {levels : Levels} {frame : Frame} {c q : Call}
    {ids below : List Identity} (args : q.args = c.args)
    (wrapped : ∀ sh : ShadowState, (Memory.policyOf ⟨m₁.heap, sh⟩ levels q.base).passing ⟨m₁.heap, sh⟩ q.f
      q.args = .wrapped)
    (tracks : ∀ v ∈ c.args, m₀.Tracks v) (grows : m₀.Grows m₁)
    (wraps : frame.callType.skipsWrapping = false) (reserves : List.Forall₂ m₀.Reserves c.args ids)
    (reserved : frame.reserved = ids.reverse ++ below) : RestoresArguments levels m₀ m₁ frame c q := by
  intro sh current keeps
  have restores : MemoryM.restoreArguments levels (Memory.policyOf ⟨m₁.heap, sh⟩ levels q.base) q.f q.args
      ⟨m₁.heap, sh⟩ = MemoryM.mapLastFirst (MemoryM.wrap levels) (c.args.map id) ⟨m₁.heap, sh⟩ := by
    unfold MemoryM.restoreArguments
    rw [bind_apply, get_apply, wrapped, args, List.map_id]
  rw [restores]
  exact MemoryM.answers_mapLastFirst (MemoryM.stacks_wrap levels)
    (fun v mem _ _ _ reserves grows reserved wraps =>
      MemoryM.answers_wrapped (tracks v mem) reserves grows reserved wraps)
    reserves below (grows.trans keeps) (by rw [← reserved, ← current]) (by rw [← wraps, ← current])

/-- The arguments of a method of an array, as an array with the grain passes them. -/
def Grain.passing : Grain → Passing
  | .imprecise => .stripped
  | .precise => .wrapped

theorem Policy.passing_array (grain : Grain) (m : Memory) (f : Value) (args : List Value) :
    (Policy.container .array grain).passing m f args = grain.passing := by
  cases grain <;> rfl

namespace Tracker

/-- What a complete call of a method of an array with the grain does. The hook before it leaves `m₁`, the
method runs and leaves `m₂`, the hook after it puts shadows on, on the result last, which leaves `m`, and then
the rule for the method applies. -/
structure ArrayRun (t : Tracker) (c : Call) (f : ArrayMethod) (array : ObjectId) (grain : Grain) (c' : Call)
    (r : Value) (t' : Tracker) (v : Value) (m₁ m₂ m : Memory) : Prop where
  undresses : t.memory.Undresses m₁
  heap : grain = .precise → m₁.heap = t.memory.heap
  ran : f.invoke m₁.heap (.object array) (grain.passing.give t.memory c.args) = .ok (v, m₂.heap)
  shadow : m₂.shadow = m₁.shadow
  redresses : m₂.Redresses t.settings.policies m
  rewords : m₂.Rewords t.settings.policies m
  keepsShadows : grain = .precise → m₂.KeepsShadows m
  notes : ∃ told, t.memory.Retells told ∧ told.SameEntries m
  tags : t.memory.SameTags m
  result_eq : m.valueOf r = v
  fresh : ∀ raw, v = .literal raw → ∃ id, m.shadow.lookup? r = some (id, raw) ∧
    t.memory.shadow.nextIdentity ≤ id.index
  args : List.Forall₂ (t.memory.Answers m) c.args c'.args
  base : c'.base = .object array
  functionName : m.functionName c'.f = f.name
  rule : t'.memory = (propagateCall c' r t.settings.policies m).2.ended
  settings : t'.settings = t.settings
  rest : t'.memory.shadow.AtRest
  sameFrames : t.memory.SameFrames t'.memory

section

variable {t t₁ t' : Tracker} {c c' q : Call} {f : ArrayMethod} {array : ObjectId} {grain : Grain}
  {elements : List Value} {r v : Value} {m m₁ m₂ : Memory}

/-- What the method is given, and what is reserved for it. -/
theorem CallsMethod.handed_array (calls : t.CallsMethod c f.name (.array f) array)
    (policy : t.settings.policies.policyFor t.memory.heap (.object array) = .container .array grain)
    (before : callPre c t = (.ok q, t₁)) :
    q.args = grain.passing.give t.memory c.args ∧ (grain = .precise → t₁.memory.heap = t.memory.heap) ∧
      ∃ frame below idf idb ids, t₁.memory.shadow.framesAt c.site = frame :: below ∧
        frame.callType = t.memory.shadow.frame.callType ∧ t.memory.Reserves c.base idb ∧
        List.Forall₂ t.memory.Reserves c.args ids ∧ frame.reserved = ids.reverse ++ [idb, idf] := by
  have native := calls.native
  have base : q.base = .object array := by rw [(calls.handed before).1]; exact calls.base
  obtain ⟨m₁, m₂, prepares, handed⟩ := callPre_handsOver (atRest_of_callPre before) native.real
    native.outside before
  have prepared := keeps_prepareArguments (t.settings.policies.policyFor m₁.heap q.base) c.f c.args m₁
  obtain ⟨_, trees, -, -, frame, -, -⟩ := MemoryM.stacks_prepareArguments
    (t.settings.policies.policyFor m₁.heap q.base) c.f c.args m₁
  rw [handed.prepared] at prepared frame
  have handles : t.memory.SameHandles m₁ :=
    sameHandles_of_grows (callPre_undresses native.real before).handles prepares.toGrows
      (prepared.toGrows.trans handed.grows)
  have passes (m : Memory) : (t.settings.policies.policyFor t.memory.heap q.base).passing m c.f c.args =
      grain.passing := by
    rw [base, policy, Policy.passing_array]
  have run := handed.prepared
  unfold MemoryM.prepareArguments at run
  rw [bind_apply, get_apply, prepares.heap, passes] at run
  obtain ⟨below, frames⟩ := handed.frames
  obtain ⟨idf, idb, reserves, reserved⟩ := prepares.reserved calls.method
  -- the identities of the arguments lie on top, however they were handed over
  obtain ⟨ids, reserves', reserved', heap⟩ : ∃ ids, List.Forall₂ m₁.Reserves c.args ids ∧
      m₂.shadow.frame.reserved = ids.reverse ++ m₁.shadow.frame.reserved ∧
      (grain = .precise → m₂.heap = m₁.heap) := by
    cases grain with
    | imprecise =>
      obtain ⟨ids, reserves', reserved'⟩ := MemoryM.reserves_stripArguments c.f c.args m₁
      dsimp only [Grain.passing] at run
      rw [run] at reserved'
      exact ⟨ids, reserves', reserved', nofun⟩
    | precise =>
      obtain ⟨ids, reserves', reserved'⟩ := MemoryM.reserves_forM c.args m₁
      obtain rfl : (c.args.forM MemoryM.reserve m₁).2 = m₂ := congrArg Prod.snd run
      exact ⟨ids, reserves', reserved', fun _ =>
        (Within.forM (fun v => .bind (MemoryM.issues_identityOf v) fun _ _ => ⟨rfl, rfl⟩) c.args m₁ :
          m₁.Issues _).heap⟩
  refine ⟨?_, fun precise => ?_, _, below, idf, idb, ids, frames, ?_, reserves,
    reserves'.imp fun _ _ h => h.mono handles prepares.toGrows, by rw [reserved', reserved]⟩
  · rw [callPre_args native.real native.outside before, passes]
  · rw [handed.heap, heap precise, prepares.heap]
  · rw [frame]
    exact prepares.callType

/-- What a method of arrays does to the heap and what it returns. -/
theorem ArrayMethod.invoke_cases {h h' : Heap} {given : List Value}
    (ran : f.invoke h (.object array) given = .ok (v, h')) :
    (∃ raw, v = .literal raw) ∧ v.isUndefined = false ∧ ∀ u, h'.importTag? u = h.importTag? u := by
  unfold ArrayMethod.invoke at ran
  split at ran
  · cases ran
  · cases f with
    | join =>
      cases ran
      exact ⟨⟨_, rfl⟩, rfl, fun _ => rfl⟩
    | push =>
      obtain ⟨rfl, rfl⟩ := Prod.mk.inj (Except.ok.inj ran)
      exact ⟨⟨_, rfl⟩, rfl, fun u => h.importTag?_setElements _ _ u⟩

/-- A complete call of a method of an array that succeeds, from code in which literals get shadows. Where
the array is tracked element by element, the shadows among the arguments are known. -/
theorem arrayRun_of_invoke (calls : t.CallsMethod c f.name (.array f) array)
    (wraps : t.memory.shadow.frame.callType.skipsWrapping = false)
    (policy : t.settings.policies.policyFor t.memory.heap (.object array) = .container .array grain)
    (tracks : grain = .precise → ∀ w ∈ c.args, t.memory.Tracks w)
    (run : invoke c none t = (.ok (c', r), t')) :
    ∃ v m₁ m₂ m, ArrayRun t c f array grain c' r t' v m₁ m₂ m := by
  have named : f.name ≠ "" := by cases f <;> decide
  have native := calls.native
  obtain ⟨q, t₁, v, heap, m, h⟩ := nativeRun_of_invoke native named run
  obtain ⟨passed, -⟩ := calls.handed h.before
  have base : q.base = .object array := by rw [passed]; exact calls.base
  have site : q.site = c.site := by rw [passed]
  obtain ⟨args, opened, frame, below, idf, idb, ids, frames, callType, reserves, reserves', reserved⟩ :=
    calls.handed_array policy h.before
  have undresses := callPre_undresses native.real h.before
  have ran : f.invoke t₁.memory.heap (.object array) (grain.passing.give t.memory c.args) = .ok (v, heap) := by
    rw [← args, ← base, ← h.ran, Native.run, Native.runWithin]
  obtain ⟨⟨raw, literal⟩, -, kept⟩ := ArrayMethod.invoke_cases ran
  -- the array has the same policy when the method has run
  have tags₁ : t.memory.SameTags t₁.memory := by
    have within := callPre_within admitsStripping_sameTags native.real
    rwa [h.before] at within
  have tags₂ : t.memory.SameTags ⟨heap, t₁.memory.shadow⟩ := fun u => (kept u).trans (tags₁ u)
  have allocated := t.settings.policies.allocated_of_policyFor policy
  have keeps (sh : ShadowState) : Memory.policyOf ⟨heap, sh⟩ t.settings.policies q.base =
      .container .array grain := by
    rw [base, ← policy]
    exact t.settings.policies.policyFor_of_tags h.follows.memory.evolves tags₂ allocated
  have passes (sh : ShadowState) : (Memory.policyOf ⟨heap, sh⟩ t.settings.policies q.base).passing ⟨heap, sh⟩
      q.f q.args = grain.passing := by
    rw [keeps, Policy.passing_array]
  have wraps' : frame.callType.skipsWrapping = false := by rw [callType, wraps]
  have restores : RestoresArguments t.settings.policies t.memory ⟨heap, t₁.memory.shadow⟩ frame c q := by
    cases grain with
    | imprecise => exact restoresArguments_stripped args passes h.follows.memory wraps' reserves' reserved
    | precise =>
      exact restoresArguments_wrapped args passes (tracks rfl) h.follows.memory wraps' reserves' reserved
  obtain ⟨redresses, rewords, callType', call, answer, answers, m₃, grows₃, empty, wraps₃, wrapped⟩ :=
    closeCall_answers (by rw [passed]) h.function.method (by rw [base, calls.base]; rfl) h.function.function
      (by rw [site]; exact frames) wraps' reserves restores
      (by rw [args, reserves'.length_eq.symm]; cases grain <;> simp [Grain.passing, Passing.give])
      reserved h.closed
  obtain ⟨result_eq, fresh⟩ := fresh_of_wrap (by rw [literal]; rfl) empty wraps₃ wrapped
  obtain ⟨told, retells, same⟩ := retells_callPre native.real h.before
  refine ⟨v, t₁.memory, ⟨heap, t₁.memory.shadow⟩, m, ?_⟩
  exact {
    undresses, ran, redresses, rewords, result_eq
    heap := opened
    shadow := rfl
    keepsShadows := fun precise => by
      subst precise
      have alike := (MemoryM.grain_of_array policy).symm
      have kept := closeCall_within (c := q) (m := ⟨heap, t₁.memory.shadow⟩)
        (MemoryM.keepsShadows_wrap alike) (fun _ _ _ _ _ held => held) (fun sh => by
          rw [keeps sh]
          exact MemoryM.keepsShadows_mapLastFirst alike q.args) v
      rwa [h.closed] at kept
    notes := ⟨told, retells, trans_of SameEntries same redresses.quiet.entries⟩
    tags := by
      have wrapping := admitsWrapping_sameTags t.settings.policies
      have same := closeCall_within (c := q) (m := ⟨heap, t₁.memory.shadow⟩) wrapping.wrap
        (fun _ _ _ => rfl) (fun _ => wrapping.restoreArguments _ _ _) v
      rw [h.closed] at same
      exact trans_of SameTags tags₂ same
    fresh := fun raw literal => by
      obtain ⟨id, known, new⟩ := fresh raw literal
      exact ⟨id, known, Nat.le_trans (Nat.le_trans undresses.minted grows₃.minted) new⟩
    args := answers
    base := answer.object array (by rw [calls.base]; rfl)
    functionName := h.functionName named redresses.evolves (by rw [call])
    rule := h.rule
    settings := h.settings
    rest := h.rest
    sameFrames := h.sameFrames }

end

namespace ArrayRun

variable {t t' : Tracker} {c c' : Call} {f : ArrayMethod} {array : ObjectId} {grain : Grain} {r v : Value}
  {m₁ m₂ m : Memory} (h : ArrayRun t c f array grain c' r t' v m₁ m₂ m)
include h

theorem grows : t.memory.Grows m := by
  have ran : (Native.array f).run m₁.heap (.object array) (grain.passing.give t.memory c.args) =
      .ok (v, m₂.heap) := by
    rw [Native.run, Native.runWithin, h.ran]
  have evolves := ((Native.array f).run_confined _ _ _ _ _ ran).1
  have stepped : m₁.Grows m₂ :=
    ⟨evolves, fun _ _ known => by rwa [h.shadow], by rw [h.shadow], fun bounded => by rwa [h.shadow]⟩
  exact (h.undresses.toGrows.trans stepped).trans h.redresses.toGrows

/-- The array keeps its policy up to the rule. -/
theorem policyOf
    (policy : t.settings.policies.policyFor t.memory.heap (.object array) = .container .array grain) :
    m.policyOf t.settings.policies (.object array) = .container .array grain := by
  rw [← policy]
  exact t.settings.policies.policyFor_of_tags h.grows.evolves h.tags
    (t.settings.policies.allocated_of_policyFor policy)

/-- The rule for the method applies, and after it the one of objects if it does not cover the call. -/
theorem rule_of_model (model : NativeCall → MemoryM Bool)
    (policy : t.settings.policies.policyFor t.memory.heap (.object array) = .container .array grain)
    (modelled : ArrayRule.model? grain f.name = some model) :
    t'.memory = Memory.ended (if (model ⟨c'.f, c'.base, c'.args, r⟩ m).1 = true then
      (model ⟨c'.f, c'.base, c'.args, r⟩ m).2 else
      (ObjectRule.call (some t.settings.policies.objectGrain) ⟨c'.f, c'.base, c'.args, r⟩
        (model ⟨c'.f, c'.base, c'.args, r⟩ m).2).2) := by
  have unlisted : ContainerRule.model? .array grain f.name = none := by
    cases grain <;> unfold ContainerRule.model? <;> rfl
  have defined := (ArrayMethod.invoke_cases h.ran).2.1
  rw [h.rule, propagateCall, bind_apply, get_apply]
  dsimp only
  rw [h.result_eq, defined, if_pos (by rfl), h.base, h.policyOf policy]
  show Memory.ended (ContainerRule.call t.settings.policies .array grain ⟨c'.f, .object array, c'.args, r⟩ m).2 = _
  unfold ContainerRule.call
  rw [bind_apply, get_apply]
  dsimp only
  rw [h.functionName, unlisted]
  dsimp only
  rw [if_pos rfl, modelled]
  dsimp only
  rw [bind_apply]
  split
  · rfl
  · rfl

/-- The bits of arguments are what they were before the call. -/
theorem any_taintBit (bounded : t.memory.shadow.Bounded) :
    c'.args.any m.taintBit = c.args.any t.memory.taintBit := by
  obtain ⟨told, retells, same⟩ := h.notes
  have answers := h.args
  generalize c.args = vs, c'.args = ws at answers
  induction answers with
  | nil => rfl
  | cons head _ ih => rw [List.any_cons, List.any_cons, head.taintBit retells same bounded, ih]

/-- What is recorded for an object is what was recorded before the call. -/
theorem ownTaint_object (bounded : t.memory.shadow.Bounded) (o : ObjectId) :
    m.ownTaint (.object o) = t.memory.ownTaint (.object o) := by
  obtain ⟨told, retells, same⟩ := h.notes
  have answers : t.memory.Answers m (.object o) (.object o) := ⟨fun _ => id, fun _ literal => nomatch literal⟩
  exact answers.ownTaint retells same bounded

end ArrayRun

end Tracker

end ShadowTaint
