import ShadowTaint.Proofs.Concatenation
import ShadowTaint.Proofs.Respelling
/-!
# Complete calls of methods of strings

A method of strings gets the text of its receiver and the values of its arguments, all without shadows.
After it has returned, receiver and arguments have their shadows back, with the taint that they had, the
result is wrapped, and then the rule for the method applies.

## Main definitions

- `Tracker.CallsText`: a method of strings is called on a string that has a shadow.
- `Memory.Answers`: an argument and what comes back for it.
- `Tracker.RestoresArguments`: the arguments come back in the frame that was saved for the call.
- `Tracker.TextRun`: what a complete call of a method of strings does.

## Main statements

- `Memory.Answers.charBits`: characters are as tainted as before the call.
- `MemoryM.trees_stripArguments`: nothing is kept for objects that are not on the heap yet.
- `Tracker.textRun_of_invoke`: a call that succeeds is such a call.
- `Tracker.invoke_cases`, `Tracker.invoke_text_cases`: at rest a call succeeds, unless the method fails or a sink
  refuses it.
-/

namespace ShadowTaint

open Memory Tracker

namespace Memory

variable {m m₁ m' m'' : Memory} {v w : Value} {id : Identity} {raw : Literal}

/-- What comes back for a value: the object, or a shadow for the literal, under its own identity or under
one that is new. -/
structure Answers (m m' : Memory) (v w : Value) : Prop where
  object : ∀ o, m.valueOf v = .object o → w = .object o
  literal : ∀ raw, m.valueOf v = .literal raw → ∃ id, m'.shadow.lookup? w = some (id, raw) ∧
    (m.shadow.lookup? v = some (id, raw) ∨
      m.shadow.lookup? v = none ∧ m.shadow.nextIdentity ≤ id.index)

namespace Answers

theorem mono (h : m.Answers m' v w) (grows : m'.Grows m'') : m.Answers m'' v w where
  object := h.object
  literal raw value := by
    obtain ⟨id, known, origin⟩ := h.literal raw value
    exact ⟨id, grows.lookup? known, origin⟩

/-- What comes back stands for the same value. -/
theorem valueOf (h : m.Answers m' v w) : m'.valueOf w = m.valueOf v := by
  have bare : (m.valueOf v).raw = m.valueOf v := m.shadow.raw_valueOf v
  cases value : m.valueOf v with
  | object o =>
    rw [h.object o value]
    rfl
  | literal raw =>
    obtain ⟨id, known, -⟩ := h.literal raw value
    exact ShadowState.valueOf_of_lookup known
  | shadow handle identity raw =>
    rw [value] at bare
    cases bare

end Answers

/-- The taint of the characters of a literal, by what is recorded for it. -/
def recordedBits (raw : Literal) (stored : Option TaintEntry) : List Bool :=
  match raw with
  | .string s => stored.elim (List.replicate s.length false) (·.charBits s.length)
  | l => List.replicate l.text.length (stored.any (·.bit))

theorem charBits_eq_recordedBits (value : m.valueOf v = .literal raw) :
    m.charBits v = recordedBits raw (m.stored? v) := by
  have text : m.stringOf? v = (Value.literal raw).string? := by rw [stringOf?, value]
  have key : m.keyText v = raw.text := by rw [keyText, value, Heap.keyText_of_plain rfl]; rfl
  unfold charBits entryOf charMap?
  rw [text, key]
  cases raw with
  | string s =>
    rcases m.stored? v with _ | e
    · exact TaintEntry.charBits_uniform s.length false _
    · rfl
  | _ => rcases m.stored? v with _ | e <;> rfl

/-- Notes leave the taint of characters as it is. -/
theorem recordedBits_of_retells (told : m.Retells m') (raw : Literal) (key : TaintKey) :
    recordedBits raw (m'.shadow.entries.get? key) = recordedBits raw (m.shadow.entries.get? key) := by
  rcases told.get?_cases key with ⟨e, e', before, after, bit, chars⟩ | ⟨before, clear⟩
  · rw [before, after]
    cases raw <;> simp [recordedBits, TaintEntry.charBits, bit, chars]
  · rw [before]
    rcases after : m'.shadow.entries.get? key with _ | e'
    · rfl
    · obtain ⟨u, -, bit, chars⟩ := clear e' after
      -- what was made for the note is clear
      have unmarked (i : Nat) : e'.chars.any (·.charAt i) = false := by
        rw [chars, charMap?]
        cases m.stringOf? u <;> simp [CharMap.charAt, CharMap.uniform, List.getD_eq_getElem?_getD,
          List.getElem?_replicate]
        split <;> rfl
      cases raw <;> simp [recordedBits, TaintEntry.charBits, bit, unmarked, List.map_const']

/-- Nothing is recorded under an identity that was not handed out when the notes were written. -/
theorem Retells.unrecorded (told : m.Retells m') (bounded : m.shadow.Bounded)
    (fresh : m.shadow.nextIdentity ≤ id.index) : m'.shadow.entries.get? (.identity id) = none := by
  rcases found : m'.shadow.entries.get? (.identity id) with _ | e'
  · rfl
  · have mention : m.shadow.Mentions id := by
      rcases told.entries _ e' found with ⟨e, before, -⟩ | ⟨u, tracked, -⟩
      · exact .inl (by rw [Table.contains, before]; rfl)
      · obtain ⟨raw, known, -⟩ := handle_of_keyOf tracked
        exact .inr (.inl ⟨raw, known⟩)
    have below := bounded id mention
    omega

/-- Notes change nothing about an entry that bits and characters show, if a new entry shows none of it. -/
theorem Retells.any (told : m.Retells m') {p : TaintEntry → Bool}
    (shows : ∀ e e' : TaintEntry, e'.bit = e.bit → e'.chars = e.chars → p e' = p e)
    (clear : ∀ (e : TaintEntry) u, e.bit = false → e.chars = m.charMap? u false → p e = false)
    (key : TaintKey) : (m'.shadow.entries.get? key).any p = (m.shadow.entries.get? key).any p := by
  rcases told.get?_cases key with ⟨e, e', before, after, bit, chars⟩ | ⟨before, untainted⟩
  · rw [before, after, Option.any_some, Option.any_some, shows e e' bit chars]
  · rw [before]
    rcases after : m'.shadow.entries.get? key with _ | e'
    · rfl
    · obtain ⟨u, -, bit, chars⟩ := untainted e' after
      rw [Option.any_some, clear e' u bit chars]
      rfl

/-- What comes back for a value shows the same taint. -/
theorem Answers.stored_any (h : m.Answers m' v w) (told : m.Retells m₁) (same : m₁.SameEntries m')
    (bounded : m.shadow.Bounded) {p : TaintEntry → Bool}
    (shows : ∀ e e' : TaintEntry, e'.bit = e.bit → e'.chars = e.chars → p e' = p e)
    (clear : ∀ (e : TaintEntry) u, e.bit = false → e.chars = m.charMap? u false → p e = false) :
    (m'.stored? w).any p = (m.stored? v).any p := by
  have bare : (m.valueOf v).raw = m.valueOf v := m.shadow.raw_valueOf v
  cases value : m.valueOf v with
  | shadow handle identity raw =>
    rw [value] at bare
    cases bare
  | object o =>
    obtain rfl : v = .object o := MemoryM.objectOf?_eq_some (by rw [objectOf?, value]; rfl)
    rw [h.object o value]
    show (m'.shadow.entries.get? (.object o)).any p = (m.shadow.entries.get? (.object o)).any p
    rw [same, told.any shows clear]
  | literal raw =>
    obtain ⟨id, known, origin⟩ := h.literal raw value
    rw [stored?_of_lookup known, same]
    rcases origin with own | ⟨missing, fresh⟩
    · rw [stored?_of_lookup own, told.any shows clear]
    · have plain : v.object? = none := by
        rw [← m.objectOf?_eq v, objectOf?, value]
        rfl
      rw [told.unrecorded bounded fresh, stored?, ShadowState.stored?, ShadowState.keyOf, missing, plain]
      rfl

theorem Answers.taintBit (h : m.Answers m' v w) (told : m.Retells m₁) (same : m₁.SameEntries m')
    (bounded : m.shadow.Bounded) : m'.taintBit w = m.taintBit v :=
  h.stored_any told same bounded (fun _ _ bit _ => bit) fun _ _ bit _ => bit

theorem ownTaint_eq_any (m : Memory) (v : Value) : m.ownTaint v = (m.stored? v).any (·.isTainted) := by
  rcases stored : m.stored? v with _ | e
  · exact ownTaint_of_none stored
  · exact ownTaint_of_stored stored

theorem Answers.ownTaint (h : m.Answers m' v w) (told : m.Retells m₁) (same : m₁.SameEntries m')
    (bounded : m.shadow.Bounded) : m'.ownTaint w = m.ownTaint v := by
  rw [ownTaint_eq_any, ownTaint_eq_any]
  refine h.stored_any told same bounded (fun e e' bit chars => ?_) fun e u bit chars => ?_
  · rw [TaintEntry.isTainted, TaintEntry.isTainted, bit, chars]
  · obtain ⟨b, map, path⟩ := e
    cases bit
    cases chars
    exact TaintEntry.isTainted_uniform m u false path

/-- Characters are as tainted as before, where nothing was written but notes. -/
theorem Answers.charBits (h : m.Answers m' v w) (told : m.Retells m₁) (same : m₁.SameEntries m')
    (bounded : m.shadow.Bounded) (plain : v.object? = none) : m'.charBits w = m.charBits v := by
  obtain ⟨raw, value⟩ : ∃ raw, m.valueOf v = .literal raw := m.shadow.exists_valueOf_of_plain plain
  obtain ⟨id, known, origin⟩ := h.literal raw value
  rw [charBits_eq_recordedBits value, charBits_eq_recordedBits (h.valueOf.trans value),
    stored?_of_lookup known, same, recordedBits_of_retells told]
  rcases origin with own | ⟨missing, fresh⟩
  · rw [stored?_of_lookup own]
  · have unstored : m.stored? v = none := by
      rw [stored?, ShadowState.stored?, ShadowState.keyOf, missing, plain]
      rfl
    rw [unstored, (refl_of Retells m).unrecorded bounded fresh]

end Memory

/-- No object is new. -/
def Memory.SameSize (m m' : Memory) : Prop := m'.heap.objects.size = m.heap.objects.size

instance : IsPreorder Memory SameSize where
  refl _ := rfl
  trans _ _ _ first second := second.trans first

theorem Memory.admitsStripping_sameSize : AdmitsStripping SameSize where
  same heap _ := congrArg (fun h : Heap => h.objects.size) heap
  property id _ _ m := m.heap.size_modify id _

namespace MemoryM

section Reserving

theorem reserves_stripArgument (arg : Value) (kept : Option (ObjectId × Value)) (m : Memory) :
    ∃ id, m.Reserves arg id ∧
      (stripArgument arg kept m).2.shadow.frame.reserved = id :: m.shadow.frame.reserved := by
  have unwrapped : ∃ id, m.Reserves arg id ∧
      (unwrapObject arg m).2.shadow.frame.reserved = id :: m.shadow.frame.reserved := by
    unfold unwrapObject
    rw [bind_apply, get_apply]
    dsimp only
    rcases m.objectOf? arg with _ | object
    · exact reserves_unwrap arg m
    · have stripped := strips_stripProperties m.heap.objects.size object [object] m
      have handles : m.SameHandles (stripProperties m.heap.objects.size object [object] m).2 :=
        admitsStripping_sameHandles.stripProperties _ _ _ m
      obtain ⟨id, reserves, reserved⟩ := reserves_unwrap arg
        (stripProperties m.heap.objects.size object [object] m).2
      rw [stripped.1.frame] at reserved
      exact ⟨id, reserves.mono handles stripped.1.toGrows, reserved⟩
  rcases kept with _ | ⟨object, v⟩
  · exact unwrapped
  · exact unwrapped

/-- What is reserved for each argument on its own is reserved for all of them, the last one on top. -/
theorem reserves_mapM {α β : Type} (value : α → Value) {f : α → MemoryM β}
    (grows : ∀ a, Within Grows (f a)) (handles : ∀ a, Within SameHandles (f a))
    (step : ∀ a m, ∃ id, m.Reserves (value a) id ∧
      (f a m).2.shadow.frame.reserved = id :: m.shadow.frame.reserved) (as : List α) (m : Memory) :
    ∃ ids, List.Forall₂ m.Reserves (as.map value) ids ∧
      (as.mapM f m).2.shadow.frame.reserved = ids.reverse ++ m.shadow.frame.reserved := by
  induction as generalizing m with
  | nil => exact ⟨[], .nil, rfl⟩
  | cons a rest ih =>
    rw [List.mapM_cons]
    obtain ⟨id, head, reserved⟩ := step a m
    obtain ⟨ids, tail, reserved'⟩ := ih (f a m).2
    refine ⟨id :: ids, .cons head (tail.imp fun _ _ h => h.mono (handles a m) (grows a m)), ?_⟩
    rw [List.reverse_cons, List.append_assoc, List.singleton_append, ← reserved]
    exact reserved'

theorem reserves_stripArguments (f : Value) (args : List Value) (m : Memory) :
    ∃ ids, List.Forall₂ m.Reserves args ids ∧
      (stripArguments f args m).2.shadow.frame.reserved = ids.reverse ++ m.shadow.frame.reserved := by
  obtain ⟨ids, reserves, reserved⟩ := reserves_mapM (fun p : Value × Nat => p.1)
    (f := fun p : Value × Nat => do
      let m' ← get
      stripArgument p.1 (if m.functionName f == "defineProperty" && p.2 == 2 then
        descriptorValue? m' p.1 else none))
    (fun p m' => by
      obtain ⟨_, -, stacked, -⟩ := stacks_stripArgument p.1 (if m.functionName f == "defineProperty" &&
        p.2 == 2 then descriptorValue? m' p.1 else none) m' fun id v kept sound => by
          split at kept
          · exact descriptorValue_owned kept sound
          · cases kept
      exact stacked.toGrows)
    (fun p => .bind .get fun _ => admitsStripping_sameHandles.stripArgument _ _)
    (fun p m' => reserves_stripArgument p.1 _ m') args.zipIdx m
  rw [List.zipIdx_map_fst] at reserves
  exact ⟨ids, reserves, reserved⟩

/-- What is not on the heap has no properties. -/
theorem stripProperties_of_size_le (depth : Nat) (visited : List ObjectId) {id : ObjectId} {m : Memory}
    (beyond : m.heap.objects.size ≤ id) : (stripProperties depth id visited m).1.1 = [] := by
  cases depth with
  | zero => rfl
  | succ depth =>
    have plain : m.heap.get id = default := m.heap.get_of_size_le beyond
    have keyless : m.heap.ownKeys id = [] := by
      rw [Heap.ownKeys, Heap.dataProperties, plain]
      rfl
    rw [stripProperties, bind_apply, get_apply, keyless]
    rfl

/-- No trees are kept for an object that is not on the heap. -/
theorem trees_stripArguments (f : Value) (args : List Value) {id : ObjectId} {m : Memory}
    (beyond : m.heap.objects.size ≤ id) :
    (stripArguments f args m).2.shadow.frame.trees.get? id = none := by
  -- no argument that is this object comes with trees
  have bare (kept : Value × Nat → Memory → Option (ObjectId × Value)) (l : List (Value × Nat)) :
      ∀ m : Memory, m.heap.objects.size ≤ id → ∀ r ∈ (l.mapM (m := MemoryM) (fun p => do
        let m' ← get
        stripArgument p.1 (kept p m')) m).1, r.1.object? = some id → r.2 = [] := by
    induction l with
    | nil => exact fun _ _ _ hr => nomatch hr
    | cons p rest ih =>
      intro m beyond r hr object
      rw [List.mapM_cons] at hr
      rcases List.mem_cons.mp hr with rfl | hr
      · have first : (stripArgument p.1 (kept p m) m).1 = (unwrapObject p.1 m).1 := by
          rcases kept p m with _ | ⟨o, v⟩ <;> rfl
        have found : (m.valueOf p.1).object? = some id := by
          rw [← object, ← stripArgument_fst p.1 (kept p m) m]
          rfl
        show (stripArgument p.1 (kept p m) m).1.2 = []
        rw [first]
        unfold unwrapObject
        rw [bind_apply, get_apply]
        dsimp only
        rw [show m.objectOf? p.1 = some id from found]
        exact stripProperties_of_size_le _ _ beyond
      · refine ih (stripArgument p.1 (kept p m) m).2 ?_ r hr object
        rw [admitsStripping_sameSize.stripArgument p.1 (kept p m) m]
        exact beyond
  rcases found : (stripArguments f args m).2.shadow.frame.trees.get? id with _ | trees
  · rfl
  · obtain ⟨⟨raw, trees'⟩, mem, eq⟩ := List.mem_filterMap.mp (Table.mem_of_ofList found)
    dsimp only at eq
    split at eq
    · rename_i object
      split at eq
      · cases eq
      · rename_i nonempty
        cases eq
        have empty : trees = [] := bare (fun p m' => if m.functionName f == "defineProperty" && p.2 == 2 then
          descriptorValue? m' p.1 else none) args.zipIdx m beyond _ mem object
        exact absurd (by rw [empty]; rfl) nonempty
    · cases eq

end Reserving

section Answering

variable {m m₁ : Memory} (levels : Levels)

/-- A value comes back under the identity that was reserved for it. -/
theorem answers_wrap {v : Value} {id : Identity} {rest : List Identity} (reserves : m.Reserves v id)
    (reserved : m₁.shadow.frame.reserved = id :: rest)
    (wraps : m₁.shadow.frame.callType.skipsWrapping = false) :
    m.Answers (wrap levels (m.valueOf v) m₁).2 v (wrap levels (m.valueOf v) m₁).1 := by
  have bare : (m.valueOf v).raw = m.valueOf v := m.shadow.raw_valueOf v
  cases value : m.valueOf v with
  | shadow handle identity raw =>
    rw [value] at bare
    cases bare
  | object o =>
    rw [wrap_of_not_bare levels rfl]
    refine ⟨fun o' value' => ?_, fun raw value' => ?_⟩
    · rw [← value', value]
    · rw [value] at value'
      cases value'
  | literal raw =>
    obtain ⟨handle, wrapped, known⟩ := wrap_literal levels reserved wraps raw
    rw [wrapped]
    refine ⟨fun o value' => ?_, fun raw' value' => ?_⟩
    · rw [value] at value'
      cases value'
    · rw [value] at value'
      cases value'
      refine ⟨id, known, ?_⟩
      rcases looked : m.shadow.lookup? v with _ | ⟨own, raw'⟩
      · exact .inr ⟨rfl, reserves.fresh looked⟩
      · have same : m.valueOf v = .literal raw' := ShadowState.valueOf_of_lookup looked
        rw [value] at same
        cases same
        rw [reserves.known own _ looked]
        exact .inl rfl

theorem answers_restoreArgument {v : Value} {id : Identity} {rest : List Identity} (reserves : m.Reserves v id)
    (reserved : m₁.shadow.frame.reserved = id :: rest)
    (wraps : m₁.shadow.frame.callType.skipsWrapping = false) :
    m.Answers (restoreArgument levels (m.valueOf v) m₁).2 v (restoreArgument levels (m.valueOf v) m₁).1 := by
  obtain ⟨m₂, spreads, run⟩ := restoreArgument_apply levels (m.valueOf v) m₁
  rw [run]
  exact answers_wrap levels reserves (by rw [spreads.frame, reserved]) (by rw [spreads.frame, wraps])

/-- What brings one operand back under the identity that was reserved for it brings many back, the last one
first. -/
theorem answers_mapLastFirst {action : Value → MemoryM Value} {give : Value → Value}
    (step : ∀ v (m : Memory), m.Stacks m.shadow.frame.reserved.tail (action v m).2) {vs : List Value}
    {ids : List Identity} (back : ∀ v ∈ vs, ∀ id rest m₁, m.Reserves v id → m.Grows m₁ →
      m₁.shadow.frame.reserved = id :: rest → m₁.shadow.frame.callType.skipsWrapping = false →
      m.Answers (action (give v) m₁).2 v (action (give v) m₁).1)
    (reserves : List.Forall₂ m.Reserves vs ids) (below : List Identity) (grows : m.Grows m₁)
    (reserved : m₁.shadow.frame.reserved = ids.reverse ++ below)
    (wraps : m₁.shadow.frame.callType.skipsWrapping = false) :
    List.Forall₂ (m.Answers (mapLastFirst action (vs.map give) m₁).2) vs
      (mapLastFirst action (vs.map give) m₁).1 := by
  induction reserves generalizing below with
  | nil => exact .nil
  | @cons v id vs ids head tail ih =>
    rw [List.reverse_cons, List.append_assoc] at reserved
    have stacked := stacks_mapLastFirst step (vs.map give) m₁
    -- the identity of this argument lies on top once those of the later ones are gone
    have top : (mapLastFirst action (vs.map give) m₁).2.shadow.frame.reserved = id :: below := by
      rw [stacked.reserved, reserved, List.length_map, tail.length_eq, ← List.length_reverse,
        List.drop_left]
      rfl
    have own := back v List.mem_cons_self id below _ head (grows.trans stacked.toGrows) top
      (by rw [stacked.callType, wraps])
    have last := (step (give v) (mapLastFirst action (vs.map give) m₁).2).toGrows
    exact .cons own ((ih (fun w mem => back w (List.mem_cons_of_mem _ mem)) _ reserved).imp
      fun _ _ answers => answers.mono last)

end Answering

end MemoryM

/-- The value that a method returns, with the heap after it. -/
def StringResult.deliver (h : Heap) : StringResult → Value × Heap
  | .literal l => (.literal l, h)
  | .texts pieces => h.allocArray (pieces.map fun cs => .string (String.ofList cs))

theorem StringResult.raw_deliver (h : Heap) (result : StringResult) :
    (result.deliver h).1.raw = (result.deliver h).1 := by
  cases result <;> rfl

theorem StringMethod.name_ne_empty (f : StringMethod) : f.name ≠ "" := by
  cases f <;> decide

theorem StringMethod.run_string (f : StringMethod) (h : Heap) (s : String) (args : List Value) :
    Native.run (.string f) h (.literal (.string s)) args = (f.run h s.toList args).map (·.deliver h) := by
  rw [Native.run, Native.runWithin]
  unfold StringMethod.invoke
  dsimp only [Value.string?, Value.literal?]
  rcases f.run h s.toList args with e | l | pieces <;> rfl

/-- The arguments of a call on a string are handed over without shadows. -/
theorem Levels.passing_string (levels : Levels) (h : Heap) (s : String) (m : Memory) (f : Value)
    (args : List Value) : (levels.policyFor h (.literal (.string s))).passing m f args = .stripped := by
  show (levels.resolve .string).passing m f args = _
  rw [levels.resolve_string]
  split <;> rfl

theorem Memory.valueOf_of_stringOf? {m : Memory} {v : Value} {s : String} (text : m.stringOf? v = some s) :
    m.valueOf v = .literal (.string s) :=
  Value.eq_string (m.shadow.raw_valueOf v) text

/-- Where characters of strings are tracked, a string has the policy of strings. -/
theorem Memory.policyOf_of_stringOf? {m : Memory} {v : Value} {s : String} (text : m.stringOf? v = some s)
    {levels : Levels} (precise : levels.precision .string = .precise) : m.policyOf levels v = .string := by
  rw [policyOf, valueOf_of_stringOf? text]
  exact levels.resolve_string.trans (if_pos precise)

theorem Memory.object?_of_stringOf? {m : Memory} {v : Value} {s : String} (text : m.stringOf? v = some s) :
    v.object? = none := by
  rw [← m.objectOf?_eq v, objectOf?, valueOf_of_stringOf? text]
  rfl

namespace Tracker

/-- The function is a method of strings, and it is called on a string. -/
structure CallsText (t : Tracker) (c : Call) (f : StringMethod) (s : String) : Prop where
  function : t.memory.heap.function? c.f = some { name := f.name, native := some (.string f) }
  method : c.method = true
  base : t.memory.stringOf? c.base = some s

theorem CallsText.native {t : Tracker} {c : Call} {f : StringMethod} {s : String}
    (calls : t.CallsText c f s) : t.CallsNative c f.name (.string f) := ⟨calls.function, calls.method⟩

/-- What a complete call of a method of strings does. The hook before it takes shadows off, which leaves
`m₁`, the method runs and leaves `m₂`, the hook after it puts shadows on, on the result last, which leaves
`m`, and then the rule for the method applies. -/
structure TextRun (t : Tracker) (c : Call) (f : StringMethod) (s : String) (c' : Call) (r : Value)
    (t' : Tracker) (result : StringResult) (v : Value) (m₁ m₂ m : Memory) : Prop where
  opened : (callPre c t).2.memory = m₁
  undresses : t.memory.Undresses m₁
  rereads : t.memory.Rereads m₁
  ran : f.run m₁.heap s.toList (c.args.map t.memory.valueOf) = .ok result
  delivered : result.deliver m₁.heap = (v, m₂.heap)
  shadow : m₂.shadow = m₁.shadow
  grows : m₂.Grows m
  rewords : m₂.Rewords t.settings.policies m
  notes : ∃ told, t.memory.Retells told ∧ told.SameEntries m
  result_eq : m.valueOf r = v
  fresh : ∀ raw, v = .literal raw → ∃ id, m.shadow.lookup? r = some (id, raw) ∧
    t.memory.shadow.nextIdentity ≤ id.index
  callType : m.shadow.frame.callType = t.memory.shadow.frame.callType
  base : t.memory.Answers m c.base c'.base
  args : List.Forall₂ (t.memory.Answers m) c.args c'.args
  function : m.heap.function? (m.valueOf c'.f) = some { name := f.name, native := some (.string f) }
  rule : t'.memory = (propagateCall c' r t.settings.policies m).2.ended

section

variable {t t₁ t' : Tracker} {c c' q : Call} {f : StringMethod} {s : String} {r : Value}

/-- What the method is given, and what is reserved for it. -/
theorem CallsText.handed (calls : t.CallsText c f s) (before : callPre c t = (.ok q, t₁)) :
    q.base = .literal (.string s) ∧ q.args = c.args.map t.memory.valueOf ∧
      ∃ frame below idf idb ids, t₁.memory.shadow.framesAt c.site = frame :: below ∧
        frame.callType = t.memory.shadow.frame.callType ∧ t.memory.Reserves c.base idb ∧
        List.Forall₂ t.memory.Reserves c.args ids ∧ frame.reserved = ids.reverse ++ [idb, idf] ∧
        ∀ o, t.memory.heap.objects.size ≤ o → frame.trees.get? o = none := by
  have native := calls.native
  obtain ⟨m₁, m₂, prepares, handed⟩ := callPre_handsOver (atRest_of_callPre before) native.real
    native.outside before
  have prepared := keeps_prepareArguments (t.settings.policies.policyFor m₁.heap q.base) c.f c.args m₁
  obtain ⟨_, trees, -, -, frame, -, -⟩ := MemoryM.stacks_prepareArguments
    (t.settings.policies.policyFor m₁.heap q.base) c.f c.args m₁
  rw [handed.prepared] at prepared frame
  have handles : t.memory.SameHandles m₁ :=
    sameHandles_of_grows (callPre_undresses native.real before).handles prepares.toGrows
      (prepared.toGrows.trans handed.grows)
  have base : q.base = .literal (.string s) := by
    rw [handed.stripped calls.method, valueOf_of_wraps handles]
    exact valueOf_of_stringOf? calls.base
  refine ⟨base, ?_, ?_⟩
  · rw [callPre_args native.real native.outside before, base, Levels.passing_string]
    rfl
  · obtain ⟨below, frames⟩ := handed.frames
    obtain ⟨idf, idb, reserves, reserved⟩ := prepares.reserved calls.method
    obtain ⟨ids, reserves', reserved'⟩ := MemoryM.reserves_stripArguments c.f c.args m₁
    have stripped : MemoryM.prepareArguments (t.settings.policies.policyFor m₁.heap q.base) c.f c.args m₁ =
        MemoryM.stripArguments c.f c.args m₁ := by
      unfold MemoryM.prepareArguments
      rw [bind_apply, get_apply, base, Levels.passing_string]
    rw [← stripped, handed.prepared, reserved] at reserved'
    refine ⟨_, below, idf, idb, ids, frames, ?_, reserves,
      reserves'.imp fun _ _ h => h.mono handles prepares.toGrows, reserved', fun o beyond => ?_⟩
    · rw [frame]
      exact prepares.callType
    · have treeless := MemoryM.trees_stripArguments c.f c.args
        (show m₁.heap.objects.size ≤ o by rw [prepares.heap]; exact beyond)
      rwa [← stripped, handed.prepared] at treeless

/-- The hook before the call records notes only. -/
theorem retells_callPre (real : t.ghostOf? c = none) (before : callPre c t = (.ok q, t₁)) :
    ∃ told, t.memory.Retells told ∧ told.SameEntries t₁.memory := by
  have run : (Hook.callPre c).run t = (.ok q.operands, t₁) := bind_apply_ok before
  rcases Hook.callPre_cases c t with ⟨told, retells, quiet, -⟩ | ⟨g, _, called, -⟩
  · rw [run] at quiet
    exact ⟨told, retells, quiet.entries⟩
  · rw [real] at called
    cases called

theorem rereads_callPre (real : t.ghostOf? c = none) (before : callPre c t = (.ok q, t₁)) :
    t.memory.Rereads t₁.memory := by
  have rereads := callPre_within_of (fun heap handles => rereads_of_heap heap fun i x known => by
    rwa [show _ = _ from handles]) MemoryM.rereads_openCall real
  rwa [before] at rereads

/-- The arguments of a call come back in the frame that was saved for it. -/
def RestoresArguments (levels : Levels) (m₀ m₁ : Memory) (frame : Frame) (c q : Call) : Prop :=
  ∀ sh : ShadowState, sh.frame = frame → m₁.Grows ⟨m₁.heap, sh⟩ →
    List.Forall₂ (m₀.Answers (MemoryM.restoreArguments levels (Memory.policyOf ⟨m₁.heap, sh⟩ levels q.base)
      q.f q.args ⟨m₁.heap, sh⟩).2) c.args (MemoryM.restoreArguments levels
        (Memory.policyOf ⟨m₁.heap, sh⟩ levels q.base) q.f q.args ⟨m₁.heap, sh⟩).1

/-- After a method has run, receiver and arguments come back, and the result gets a shadow. -/
theorem closeCall_answers {m₀ m₁ m : Memory} {levels : Levels} {v : Value} {fn : Function} {frame : Frame}
    {below : List Frame} {idf idb : Identity} {ids : List Identity} (outside : q.external = true)
    (method : q.method = true) (value : m₀.valueOf c.base = q.base)
    (function : m₁.heap.function? q.f = some fn)
    (saved : m₁.shadow.framesAt q.site = frame :: below)
    (wraps : frame.callType.skipsWrapping = false) (reserves : m₀.Reserves c.base idb)
    (restores : RestoresArguments levels m₀ m₁ frame c q) (length : ids.length = q.args.length)
    (reserved : frame.reserved = ids.reverse ++ [idb, idf])
    (closed : closeCall q v levels m₁ = (.ok (c', r), m)) :
    m₁.Redresses levels m ∧ m₁.Rewords levels m ∧ m.shadow.frame.callType = frame.callType ∧
      c' = { q with base := c'.base, args := c'.args } ∧
      m₀.Answers m c.base c'.base ∧ List.Forall₂ (m₀.Answers m) c.args c'.args ∧
      ∃ m₂, m₁.Grows m₂ ∧ m₂.shadow.frame.reserved = [] ∧
        m₂.shadow.frame.callType.skipsWrapping = false ∧ MemoryM.wrap levels v m₂ = (r, m) := by
  obtain ⟨sh, args', m₂, base', m₃, f', m₄, restored, run₂, run₃, run₄, run₅, rfl⟩ :=
    closeCall_eq_ok outside method closed
  obtain ⟨sh', restored', current, keeps, -⟩ := restoreFrame_ok saved
  rw [restored] at restored'
  cases restored'
  have reopened : m₁.Rewords levels ⟨m₁.heap, sh⟩ := rewords_of_heap rfl keeps.known
  obtain ⟨redresses, callType⟩ := redresses_reopened saved restored run₂
  have rewords₂ := MemoryM.rewords_restoreArguments levels (Memory.policyOf ⟨m₁.heap, sh⟩ levels q.base)
    q.f q.args ⟨m₁.heap, sh⟩
  have stacked₂ := MemoryM.stacks_restoreArguments levels (Memory.policyOf ⟨m₁.heap, sh⟩ levels q.base)
    q.f q.args ⟨m₁.heap, sh⟩
  have answers := restores sh current keeps.toGrows
  rw [run₂] at rewords₂ stacked₂ answers
  -- then the receiver, the function, and the result
  have reserved₂ : m₂.shadow.frame.reserved = [idb, idf] := by
    rw [stacked₂.reserved, current, reserved, ← length, ← List.length_reverse, List.drop_left]
  have wraps₂ : m₂.shadow.frame.callType.skipsWrapping = false := by rw [callType, wraps]
  have answer := MemoryM.answers_wrap levels reserves reserved₂ wraps₂
  rw [value, run₃] at answer
  have same := MemoryM.wrap_of_not_bare levels (isBareLiteral_of_function function) m₃
  rw [run₄] at same
  have wrapped₃ := redresses_wrap levels q.base m₂
  have wrapped₄ := redresses_wrap levels q.f m₃
  have wrapped₅ := redresses_wrap levels v m₄
  have rewords₃ := MemoryM.rewords_wrap levels q.base m₂
  have rewords₄ := MemoryM.rewords_wrap levels q.f m₃
  have rewords₅ := MemoryM.rewords_wrap levels v m₄
  have stacked₃ := MemoryM.stacks_wrap levels q.base m₂
  have stacked₄ := MemoryM.stacks_wrap levels q.f m₃
  have stacked₅ := MemoryM.stacks_wrap levels v m₄
  rw [run₃] at wrapped₃ rewords₃ stacked₃
  rw [run₄] at wrapped₄ rewords₄ stacked₄
  rw [run₅] at wrapped₅ rewords₅ stacked₅
  have later := wrapped₄.trans wrapped₅
  refine ⟨redresses.trans (wrapped₃.trans later),
    trans_of (Rewords levels) (trans_of (Rewords levels) reopened rewords₂)
      (trans_of (Rewords levels) rewords₃ (trans_of (Rewords levels) rewords₄ rewords₅)), ?_, ?_,
    answer.mono later.toGrows, answers.imp fun _ _ h => h.mono (wrapped₃.trans later).toGrows,
    m₄, (redresses.trans (wrapped₃.trans wrapped₄)).toGrows, ?_, ?_, run₅⟩
  · rw [stacked₅.callType, stacked₄.callType, stacked₃.callType, callType]
  · rw [show f' = q.f from same]
  · rw [stacked₄.reserved, stacked₃.reserved, reserved₂]
    rfl
  · rw [stacked₄.callType, stacked₃.callType, wraps₂]

/-- Arguments that were handed over without shadows come back. -/
theorem restoresArguments_stripped {m₀ m₁ : Memory} {levels : Levels} {frame : Frame} {ids below : List Identity}
    (args : q.args = c.args.map m₀.valueOf)
    (stripped : ∀ sh : ShadowState, (Memory.policyOf ⟨m₁.heap, sh⟩ levels q.base).passing ⟨m₁.heap, sh⟩ q.f
      q.args = .stripped)
    (grows : m₀.Grows m₁) (wraps : frame.callType.skipsWrapping = false)
    (reserves : List.Forall₂ m₀.Reserves c.args ids) (reserved : frame.reserved = ids.reverse ++ below) :
    RestoresArguments levels m₀ m₁ frame c q := by
  intro sh current keeps
  have restores : MemoryM.restoreArguments levels (Memory.policyOf ⟨m₁.heap, sh⟩ levels q.base) q.f q.args
      ⟨m₁.heap, sh⟩ = MemoryM.mapLastFirst (MemoryM.restoreArgument levels) (c.args.map m₀.valueOf)
        ⟨m₁.heap, sh⟩ := by
    unfold MemoryM.restoreArguments
    rw [bind_apply, get_apply, stripped, args]
  rw [restores]
  exact MemoryM.answers_mapLastFirst (MemoryM.stacks_restoreArgument levels)
    (fun _ _ _ _ _ reserves _ reserved wraps =>
      MemoryM.answers_restoreArgument levels reserves reserved wraps)
    reserves below (grows.trans keeps) (by rw [← reserved, ← current]) (by rw [← wraps, ← current])

/-- A literal that is wrapped last comes back under an identity that is new. -/
theorem fresh_of_wrap {m m' : Memory} {levels : Levels} {v : Value} (bare : v.raw = v)
    (empty : m.shadow.frame.reserved = []) (wraps : m.shadow.frame.callType.skipsWrapping = false)
    (run : MemoryM.wrap levels v m = (r, m')) : m'.valueOf r = v ∧
      ∀ raw, v = .literal raw → ∃ id, m'.shadow.lookup? r = some (id, raw) ∧
        m.shadow.nextIdentity ≤ id.index := by
  cases v with
  | shadow handle identity raw => cases bare
  | object o =>
    have same := MemoryM.wrap_of_not_bare levels (v := .object o) rfl m
    rw [run] at same
    rw [show r = .object o from same]
    exact ⟨rfl, fun raw object => by cases object⟩
  | literal raw =>
    obtain ⟨handle, made⟩ := MemoryM.wrap_literal_fresh levels empty wraps raw
    have owned := MemoryM.ownedBy_wrap levels (m := m) (v := .literal raw) trivial
    rw [run] at made owned
    rw [show r = _ from made] at owned ⊢
    refine ⟨ShadowState.valueOf_of_lookup owned, fun raw' same => ?_⟩
    cases same
    exact ⟨_, owned, Nat.le_refl _⟩

/-- A complete call of a method of strings that succeeds, from code in which literals get shadows. -/
theorem textRun_of_invoke (calls : t.CallsText c f s)
    (wraps : t.memory.shadow.frame.callType.skipsWrapping = false)
    (run : invoke c none t = (.ok (c', r), t')) :
    ∃ result v m₁ m₂ m, TextRun t c f s c' r t' result v m₁ m₂ m := by
  have native := calls.native
  obtain ⟨q, t₁, v, heap, m, h⟩ := nativeRun_of_invoke native f.name_ne_empty run
  have passed := h.passed
  obtain ⟨base, args, frame, below, idf, idb, ids, frames, callType, reserves, reserves', reserved, -⟩ :=
    calls.handed h.before
  have undresses := callPre_undresses native.real h.before
  -- the method runs on the text of the receiver
  obtain ⟨result, ran, delivered⟩ : ∃ result, f.run t₁.memory.heap s.toList q.args = .ok result ∧
      result.deliver t₁.memory.heap = (v, heap) := by
    have ran := h.ran
    rw [base, StringMethod.run_string] at ran
    rcases text : f.run t₁.memory.heap s.toList q.args with e | result <;> rw [text] at ran
    · cases ran
    · exact ⟨result, rfl, Except.ok.inj ran⟩
  have site : q.site = c.site := by rw [passed]
  have restores : RestoresArguments t.settings.policies t.memory ⟨heap, t₁.memory.shadow⟩ frame c q := by
    refine restoresArguments_stripped args (fun sh => ?_) h.follows.memory (by rw [callType, wraps]) reserves'
      reserved
    rw [base]
    exact t.settings.policies.passing_string heap s _ _ _
  obtain ⟨redresses, rewords, callType', call, answer, answers, m₃, grows₃, empty, wraps₃, wrapped⟩ :=
    closeCall_answers (by rw [passed]) h.function.method
      (by rw [base]; exact valueOf_of_stringOf? calls.base) h.function.function
      (by rw [site]; exact frames) (by rw [callType, wraps]) reserves restores
      (by rw [args, List.length_map, reserves'.length_eq]) reserved h.closed
  have bare := result.raw_deliver t₁.memory.heap
  rw [delivered] at bare
  obtain ⟨result_eq, fresh⟩ := fresh_of_wrap bare empty wraps₃ wrapped
  obtain ⟨told, retells, same⟩ := retells_callPre native.real h.before
  have minted : t.memory.shadow.nextIdentity ≤ m₃.shadow.nextIdentity :=
    Nat.le_trans undresses.minted grows₃.minted
  refine ⟨result, v, t₁.memory, ⟨heap, t₁.memory.shadow⟩, m, ?_⟩
  exact {
    opened := by rw [h.before]
    undresses, delivered, rewords, result_eq
    rule := h.rule
    rereads := rereads_callPre native.real h.before
    ran := by rw [← args, ran]
    shadow := rfl
    grows := redresses.toGrows
    notes := ⟨told, retells, trans_of SameEntries same redresses.quiet.entries⟩
    fresh := fun raw literal => by
      obtain ⟨id, known, new⟩ := fresh raw literal
      exact ⟨id, known, Nat.le_trans minted new⟩
    callType := callType'.trans callType
    base := answer
    args := answers
    function := h.function_valueOf f.name_ne_empty redresses.evolves (by rw [call]) }

/-- A call of a native function succeeds, unless the call is refused or the function fails. At rest a call is
only refused to end the run. -/
theorem invoke_cases {name : String} {n : Native} (calls : t.CallsNative c name n) (named : name ≠ "") :
    (∃ e t', invoke c none t = (.error e, t') ∧ (t.memory.shadow.AtRest → e.EndsRun)) ∨
      (∃ q t₁ e, callPre c t = (.ok q, t₁) ∧ n.run t₁.memory.heap q.base q.args = .error e ∧
        invoke c none t = (.error (.native e), t₁)) ∨
      ∃ c' r t', invoke c none t = (.ok (c', r), t') := by
  rcases before : callPre c t with ⟨e | q, t₁⟩
  · refine .inl ⟨e, t₁, by rw [invoke, bind_apply_error before], fun rest => ?_⟩
    exact Paired.endsRun_of_before (p := .call c) rest (bind_apply_error before)
  · obtain ⟨passed, -, ids, hands, opens, context⟩ := calls.handed before
    have calls₁ : t₁.CallsNative q name n := by
      rw [passed]
      exact calls.mono t₁ named (callPre_undresses calls.real before).evolves _ _ _
    have performed := perform_native calls₁
    rcases ran : n.run t₁.memory.heap q.base q.args with e | ⟨v, heap⟩ <;> rw [ran] at performed
    · refine .inr (.inl ⟨q, t₁, e, rfl, ran, ?_⟩)
      rw [invoke, bind_apply_ok before, bind_apply_error performed]
    · have calls₂ : CallsNative { t₁ with memory := { t₁.memory with heap } } q name n :=
        calls₁.mono _ named (n.run_confined _ _ _ _ _ ran).1 q.base q.args q.external
      obtain ⟨c', r, t', after, -⟩ := callPost_of_none hands opens (follows_of_ran before ran)
        ⟨context, rfl, fun _ => rfl, fun _ => rfl⟩ calls₂.real v
      refine .inr (.inr ⟨c', r, t', ?_⟩)
      rw [invoke, bind_apply_ok before, bind_apply_ok performed]
      exact after

/-- A call of a method of strings succeeds, unless the call is refused or the method fails. At rest a call
is only refused to end the run. -/
theorem invoke_text_cases (calls : t.CallsText c f s)
    (wraps : t.memory.shadow.frame.callType.skipsWrapping = false) :
    (∃ e t', invoke c none t = (.error e, t') ∧ (t.memory.shadow.AtRest → e.EndsRun)) ∨
      (∃ h e t', f.run h s.toList (c.args.map t.memory.valueOf) = .error e ∧
        invoke c none t = (.error (.native e), t')) ∨
      ∃ c' r t' result v m₁ m₂ m, invoke c none t = (.ok (c', r), t') ∧
        TextRun t c f s c' r t' result v m₁ m₂ m := by
  rcases invoke_cases calls.native f.name_ne_empty with refused | ⟨q, t₁, e, before, ran, failed⟩ |
    ⟨c', r, t', run⟩
  · exact .inl refused
  · obtain ⟨base, args, -⟩ := calls.handed before
    rw [base, args, StringMethod.run_string] at ran
    refine .inr (.inl ⟨t₁.memory.heap, e, t₁, ?_, failed⟩)
    rcases text : f.run t₁.memory.heap s.toList (c.args.map t.memory.valueOf) with e' | result <;>
      rw [text] at ran
    · exact congrArg _ (Except.error.inj ran)
    · cases ran
  · obtain ⟨result, v, m₁, m₂, m, textRun⟩ := textRun_of_invoke calls wraps run
    exact .inr (.inr ⟨c', r, t', result, v, m₁, m₂, m, run, textRun⟩)

end

namespace TextRun

variable {t t' : Tracker} {c c' : Call} {f : StringMethod} {s : String} {r v : Value} {result : StringResult}
  {m₁ m₂ m : Memory} (h : TextRun t c f s c' r t' result v m₁ m₂ m)
include h

theorem string_base (calls : t.CallsText c f s) : m.stringOf? c'.base = some s := by
  rw [stringOf?, h.base.valueOf]
  exact calls.base

theorem charBits_base (calls : t.CallsText c f s) (bounded : t.memory.shadow.Bounded) :
    m.charBits c'.base = t.memory.charBits c.base := by
  obtain ⟨told, retells, same⟩ := h.notes
  exact h.base.charBits retells same bounded (object?_of_stringOf? calls.base)

/-- What the second run gets for an argument is what it would have got before the call. -/
theorem encodedArgument (bounded : t.memory.shadow.Bounded) {a w : Value} (answers : t.memory.Answers m a w) :
    TextRule.encodedArgument m w = TextRule.encodedArgument t.memory a := by
  obtain ⟨told, retells, same⟩ := h.notes
  have value := answers.valueOf
  unfold TextRule.encodedArgument
  rw [show m.stringOf? w = t.memory.stringOf? a from congrArg Value.string? value]
  rcases text : t.memory.stringOf? a with _ | s
  · exact congrArg Except.ok value
  · dsimp only
    have bits := answers.charBits retells same bounded (object?_of_stringOf? text)
    rw [TextRule.encoded, TextRule.encoded, bits, keyText, keyText, value, valueOf_of_stringOf? text,
      Heap.keyText_string, Heap.keyText_string]

theorem encodedArguments (bounded : t.memory.shadow.Bounded) :
    c'.args.mapM (TextRule.encodedArgument m) = c.args.mapM (TextRule.encodedArgument t.memory) := by
  have answers := h.args
  generalize c.args = as, c'.args = ws at answers
  induction answers with
  | nil => rfl
  | cons head _ ih => rw [List.mapM_cons, List.mapM_cons, h.encodedArgument bounded head, ih]

/-- Nothing is recorded for a literal that was returned before the rule applies. -/
theorem unstored (bounded : t.memory.shadow.Bounded) {raw : Literal} (literal : v = .literal raw) :
    m.stored? r = none := by
  obtain ⟨id, known, fresh⟩ := h.fresh raw literal
  obtain ⟨told, retells, same⟩ := h.notes
  rw [stored?_of_lookup known, same, retells.unrecorded bounded fresh]

theorem functionName : m.functionName c'.f = f.name := by
  rw [Memory.functionName, h.function]
  exact if_neg f.name_ne_empty

/-- Where strings are tracked precisely, the rule of strings applies, unless nothing is returned. -/
theorem rule_of_precise (calls : t.CallsText c f s)
    (precise : t.settings.policies.precision .string = .precise) (defined : v.isUndefined = false) :
    t'.memory = (TextRule.call t.settings.policies ⟨c'.f, c'.base, c'.args, r⟩ m).2.ended := by
  have policy := policyOf_of_stringOf? (h.string_base calls) precise
  rw [h.rule, propagateCall, bind_apply, get_apply]
  dsimp only
  rw [h.result_eq, defined, policy]
  rfl

theorem grows_rule : m.Grows t'.memory := by
  rw [h.rule]
  exact (spreads_propagateCall c' r t.settings.policies m).toGrows.trans (keeps_ended _).toGrows

/-- A literal that was returned goes on having a known shadow. -/
theorem known_result {raw : Literal} (literal : v = .literal raw) :
    ∃ id, t'.memory.shadow.lookup? r = some (id, raw) ∧ t.memory.shadow.nextIdentity ≤ id.index := by
  obtain ⟨id, known, fresh⟩ := h.fresh raw literal
  exact ⟨id, h.grows_rule.lookup? known, fresh⟩

end TextRun

end Tracker

end ShadowTaint
