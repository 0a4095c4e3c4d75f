import Mathlib.Data.List.Forall2
import ShadowTaint.Proofs.Trees
/-!
# Operands of stores and calls

The operands of a call go onto the stack one after the other, and they come off it last one first,
whatever the policy of the receiver is and however it passes them.

## Main definitions

- `Memory.HandedOut`: how the operands of a call are handed to the host.

## Main statements

- `MemoryM.stacks_prepareArguments`: one identity is reserved for every argument.
- `MemoryM.stacks_restoreArguments`: one identity is dropped for every argument.
- `MemoryM.comesBack_restoreArguments`: every argument comes back in its place.
-/

namespace ShadowTaint

open Memory

/-- Values are handed to the host as others, and an identity is reserved for each of them. -/
inductive Memory.HandedOut (m : Memory) : List Value → List Value → List Identity → Prop where
  | nil : HandedOut m [] [] []
  | cons {v r : Value} {id : Identity} {vs rs : List Value} {ids : List Identity}
      (head : m.HandsOut v r id) (tail : HandedOut m vs rs ids) :
      HandedOut m (v :: vs) (r :: rs) (id :: ids)

theorem Memory.HandedOut.mono {m m' : Memory} {vs rs : List Value} {ids : List Identity}
    (h : m'.HandedOut vs rs ids) (grows : m.Grows m') : m.HandedOut vs rs ids := by
  induction h with
  | nil => exact .nil
  | cons head _ ih => exact .cons (head.mono grows) ih

theorem Memory.HandedOut.length {m : Memory} {vs rs : List Value} {ids : List Identity}
    (h : m.HandedOut vs rs ids) : rs.length = vs.length ∧ ids.length = vs.length := by
  induction h with
  | nil => exact ⟨rfl, rfl⟩
  | cons _ _ ih => exact ⟨congrArg (· + 1) ih.1, congrArg (· + 1) ih.2⟩

namespace MemoryM

section Stored

theorem prepareStored_of_strips {policy : Policy} (h : policy = .container .array .imprecise)
    (v : Value) : prepareStored policy v = unwrap v := by
  rw [h]
  rfl

theorem prepareStored_of_keeps {policy : Policy} (h : policy ≠ .container .array .imprecise)
    (v : Value) : prepareStored policy v = pure v := by
  unfold prepareStored
  split
  · exact absurd rfl h
  · rfl

theorem restoreStored_of_strips (levels : Levels) {policy : Policy}
    (h : policy = .container .array .imprecise) (v : Value) :
    restoreStored levels policy v = wrap levels v := by
  rw [h]
  rfl

theorem restoreStored_of_keeps (levels : Levels) {policy : Policy}
    (h : policy ≠ .container .array .imprecise) (v : Value) :
    restoreStored levels policy v = pure v := by
  unfold restoreStored
  split
  · exact absurd rfl h
  · rfl

end Stored

section Preparing

theorem stacks_stripArgument (arg : Value) (kept : Option (ObjectId × Value)) (m : Memory)
    (owned : ∀ id v, kept = some (id, v) → m.Sound → v.OwnedBy m.shadow) :
    ∃ id, m.HandsOut arg (stripArgument arg kept m).1.1 id ∧
      m.Stacks (id :: m.shadow.frame.reserved) (stripArgument arg kept m).2 ∧
      (m.shadow.Bounded → (stripArgument arg kept m).2.shadow.Covers
        (stripArgument arg kept m).1.2) := by
  obtain ⟨id, out, stacked⟩ := stacks_unwrapObject arg m
  refine ⟨id, ?_⟩
  have covers := covers_unwrapObject arg (m := m)
  rcases kept with _ | ⟨object, v⟩
  · exact ⟨out, stacked, covers⟩
  · refine ⟨out, ?_, covers⟩
    have hv := owned object v rfl
    exact {
      toKeeps := {
        evolves := stacked.evolves.trans (Heap.evolves_setProperty _ _ _ _)
        known := stacked.known
        minted := stacked.minted
        bounded := stacked.bounded
        sound := fun sound => Heap.Holding.setProperty (stacked.sound sound)
          (fun _ hw => Value.ownedBy_of_raw hw) _ _ (stacked.toGrows.ownedBy (hv sound)) }
      frame := stacked.frame
      saved := stacked.saved
      context := stacked.context }

theorem descriptorValue_owned {m : Memory} {descriptor : Value} {id : ObjectId} {v : Value}
    (h : descriptorValue? m descriptor = some (id, v)) (sound : m.Sound) : v.OwnedBy m.shadow := by
  unfold descriptorValue? at h
  obtain ⟨object, -, h⟩ := Option.bind_eq_some_iff.mp h
  dsimp only at h
  split at h
  · cases h
  · cases h
    exact HeapObject.Holding.property (sound id) (fun _ hw => Value.ownedBy_of_raw hw) "value"

/-- A step that puts one identity on the stack for a value puts one there for each of many. -/
theorem stacks_mapM {α β : Type} (value : α → Value) (given : β → Value) (extra : β → List TaintTree)
    {f : α → MemoryM β} (step : ∀ a m, ∃ id, m.HandsOut (value a) (given (f a m).1) id ∧
      m.Stacks (id :: m.shadow.frame.reserved) (f a m).2 ∧
      (m.shadow.Bounded → (f a m).2.shadow.Covers (extra (f a m).1)))
    (as : List α) (m : Memory) :
    ∃ ids, m.HandedOut (as.map value) ((as.mapM f m).1.map given) ids ∧
      m.Stacks (ids.reverse ++ m.shadow.frame.reserved) (as.mapM f m).2 ∧
      (m.shadow.Bounded → ∀ b ∈ (as.mapM f m).1, (as.mapM f m).2.shadow.Covers (extra b)) := by
  induction as generalizing m with
  | nil => exact ⟨[], .nil, .refl m, fun _ _ hb => nomatch hb⟩
  | cons a rest ih =>
    rw [List.mapM_cons]
    obtain ⟨id, out, stacked, covers⟩ := step a m
    obtain ⟨ids, outs, later, covered⟩ := ih (f a m).2
    refine ⟨id :: ids, .cons out (outs.mono stacked.toGrows), ?_, ?_⟩
    · rw [stacked.reserved] at later
      rw [List.reverse_cons, List.append_assoc]
      exact stacked.trans later
    · intro bounded b hb
      rcases List.mem_cons.mp hb with rfl | hb
      · exact (covers bounded).mono later.minted
      · exact covered (stacked.bounded bounded) b hb

/-- Reserving the identities of many values puts one identity on the stack for each. -/
theorem stacks_forM_reserve (vs : List Value) (m : Memory) :
    ∃ ids, m.HandedOut vs vs ids ∧
      m.Stacks (ids.reverse ++ m.shadow.frame.reserved) (vs.forM reserve m).2 := by
  induction vs generalizing m with
  | nil => exact ⟨[], .nil, .refl m⟩
  | cons v rest ih =>
    obtain ⟨id, out, stacked⟩ := stacks_reserve v m
    obtain ⟨ids, outs, later⟩ := ih (reserve v m).2
    refine ⟨id :: ids, .cons out (outs.mono stacked.toGrows), ?_⟩
    rw [stacked.reserved] at later
    rw [List.reverse_cons, List.append_assoc]
    exact stacked.trans later

/-- The arguments lose their shadows, one identity is put on the stack for each, and nothing else in
the frame changes but the trees. -/
theorem stacks_stripArguments (f : Value) (args : List Value) (m : Memory) :
    ∃ ids trees, m.HandedOut args (stripArguments f args m).1 ids ∧
      m.Keeps (stripArguments f args m).2 ∧
      (stripArguments f args m).2.shadow.frame =
        { m.shadow.frame with reserved := ids.reverse ++ m.shadow.frame.reserved, trees } ∧
      (stripArguments f args m).2.shadow.saved = m.shadow.saved ∧
      (stripArguments f args m).2.shadow.context = m.shadow.context := by
  obtain ⟨ids, outs, stacked, covers⟩ := stacks_mapM (fun p : Value × Nat => p.1)
    (fun p : Value × List TaintTree => p.1) (fun p => p.2) (f := fun p : Value × Nat => do
      let m' ← get
      stripArgument p.1 (if m.functionName f == "defineProperty" && p.2 == 2 then
        descriptorValue? m' p.1 else none))
    (fun p m' => stacks_stripArgument p.1 _ m' fun id v kept sound => by
      split at kept
      · exact descriptorValue_owned kept sound
      · cases kept)
    args.zipIdx m
  rw [List.zipIdx_map_fst] at outs
  refine ⟨ids, (stripArguments f args m).2.shadow.frame.trees, outs, ?_, ?_, stacked.saved,
    stacked.context⟩
  · refine stacked.toKeeps.withShadow (fun _ _ h => h) (Nat.le_refl _) fun before after => ?_
    refine ShadowState.bounded_withFrame after fun id mention => ?_
    rcases mention with reserved | ⟨object, trees, found, mention⟩
    · exact ShadowState.lt_of_reserved after reserved
    · obtain ⟨⟨raw, trees'⟩, mem, eq⟩ := List.mem_filterMap.mp (Table.mem_of_ofList found)
      dsimp only at eq
      split at eq
      · split at eq
        · cases eq
        · cases eq
          exact covers before _ mem id mention
      · cases eq
  · exact congrArg (fun frame : Frame =>
      { frame with trees := (stripArguments f args m).2.shadow.frame.trees }) stacked.frame

/-- However the arguments of a call are passed, one identity is put on the stack for each. -/
theorem stacks_prepareArguments (policy : Policy) (f : Value) (args : List Value) (m : Memory) :
    ∃ ids trees, m.HandedOut args (prepareArguments policy f args m).1 ids ∧
      m.Keeps (prepareArguments policy f args m).2 ∧
      (prepareArguments policy f args m).2.shadow.frame =
        { m.shadow.frame with reserved := ids.reverse ++ m.shadow.frame.reserved, trees } ∧
      (prepareArguments policy f args m).2.shadow.saved = m.shadow.saved ∧
      (prepareArguments policy f args m).2.shadow.context = m.shadow.context := by
  unfold prepareArguments
  rw [bind_apply, get_apply]
  dsimp only
  cases policy.passing m f args with
  | wrapped =>
    obtain ⟨ids, outs, stacked⟩ := stacks_forM_reserve args m
    exact ⟨ids, m.shadow.frame.trees, outs, stacked.toKeeps, stacked.frame, stacked.saved,
      stacked.context⟩
  | wrappedAfterKey =>
    cases args with
    | nil => exact ⟨[], m.shadow.frame.trees, .nil, refl_of Keeps m, rfl, rfl, rfl⟩
    | cons key rest =>
      obtain ⟨id, out, first⟩ := stacks_unwrap key m
      obtain ⟨ids, outs, later⟩ := stacks_forM_reserve rest (unwrap key m).2
      have stacked := first.trans later
      rw [first.reserved] at stacked
      refine ⟨id :: ids, m.shadow.frame.trees, .cons out (outs.mono first.toGrows),
        stacked.toKeeps, ?_, stacked.saved, stacked.context⟩
      rw [List.reverse_cons, List.append_assoc]
      exact stacked.frame
  | stripped => exact stacks_stripArguments f args m

/-- What is taken off every argument on its own holds of all of them. -/
theorem raw_mapM {α β : Type} (given : β → Value) {f : α → MemoryM β}
    (step : ∀ a m, (given (f a m).1).raw = given (f a m).1) (as : List α) (m : Memory) :
    ∀ r ∈ (as.mapM f m).1.map given, r.raw = r := by
  induction as generalizing m with
  | nil => exact fun _ hr => nomatch hr
  | cons a rest ih =>
    rw [List.mapM_cons]
    intro r hr
    rcases List.mem_cons.mp hr with rfl | hr
    · exact step a m
    · exact ih (f a m).2 r hr

theorem raw_stripArgument (arg : Value) (kept : Option (ObjectId × Value)) (m : Memory) :
    (stripArgument arg kept m).1.1.raw = (stripArgument arg kept m).1.1 := by
  rcases kept with _ | ⟨object, v⟩
  · exact raw_unwrapObject arg m
  · exact raw_unwrapObject arg m

/-- The arguments that the callee gets are no shadows, or arguments that the caller passed. -/
theorem passed_prepareArguments (policy : Policy) (f : Value) (args : List Value) (m : Memory) :
    ∀ r ∈ (prepareArguments policy f args m).1, r.raw = r ∨ r ∈ args := by
  unfold prepareArguments
  rw [bind_apply, get_apply]
  dsimp only
  cases policy.passing m f args with
  | wrapped => exact fun r hr => .inr hr
  | wrappedAfterKey =>
    cases args with
    | nil => exact fun r hr => .inr hr
    | cons key rest =>
      intro r hr
      rcases List.mem_cons.mp hr with rfl | hr
      · exact .inl (raw_unwrap key m)
      · exact .inr (List.mem_cons_of_mem _ hr)
  | stripped =>
    have raws := raw_mapM (fun p : Value × List TaintTree => p.1)
      (f := fun p : Value × Nat => do
        let m' ← get
        stripArgument p.1 (if m.functionName f == "defineProperty" && p.2 == 2 then
          descriptorValue? m' p.1 else none))
      (fun p m' => raw_stripArgument p.1 _ m') args.zipIdx m
    exact fun r hr => .inl (raws r hr)

end Preparing

section Restoring

/-- What drops one identity for a value drops one for each of many. -/
theorem stacks_mapLastFirst {action : Value → MemoryM Value}
    (step : ∀ v (m : Memory), m.Stacks m.shadow.frame.reserved.tail (action v m).2) (vs : List Value)
    (m : Memory) :
    m.Stacks (m.shadow.frame.reserved.drop vs.length) (mapLastFirst action vs m).2 := by
  induction vs with
  | nil => exact .refl m
  | cons v rest ih =>
    have last := step v (mapLastFirst action rest m).2
    rw [ih.reserved, List.tail_drop] at last
    exact ih.trans last

/-- What brings one operand back under the identity reserved last brings many back, each under its
own. -/
theorem comesBack_mapLastFirst (action : Value → MemoryM Value) {m : Memory}
    (step : ∀ v (m : Memory), m.Stacks m.shadow.frame.reserved.tail (action v m).2)
    (back : ∀ v r id rest m₁, m.HandsOut v r id → m.Grows m₁ →
      m₁.shadow.frame.reserved = id :: rest → m₁.shadow.frame.callType.skipsWrapping = false →
      m.ComesBack (action r m₁).2 v (action r m₁).1)
    {vs rs : List Value} {ids : List Identity} (outs : m.HandedOut vs rs ids) (below : List Identity)
    (m₁ : Memory) (grows : m.Grows m₁)
    (reserved : m₁.shadow.frame.reserved = ids.reverse ++ below)
    (wraps : m₁.shadow.frame.callType.skipsWrapping = false) :
    List.Forall₂ (m.ComesBack (mapLastFirst action rs m₁).2) vs
      (mapLastFirst action rs m₁).1 := by
  induction outs generalizing below with
  | nil => exact .nil
  | @cons v r id vs rs ids head tail ih =>
    rw [List.reverse_cons, List.append_assoc] at reserved
    have stacked := stacks_mapLastFirst step rs m₁
    have later := ih _ reserved
    -- the identity of this operand lies on top once those of the later ones are gone
    have top : (mapLastFirst action rs m₁).2.shadow.frame.reserved = id :: below := by
      rw [stacked.reserved, reserved, tail.length.1.trans tail.length.2.symm,
        ← List.length_reverse, List.drop_left]
      rfl
    have own := back v r id below _ head (grows.trans stacked.toGrows) top
      (by rw [stacked.callType, wraps])
    have grows' := (step r (mapLastFirst action rs m₁).2).toGrows
    exact .cons own (later.imp fun _ _ h => h.mono grows')

theorem ownedBy_mapLastFirst {action : Value → MemoryM Value}
    (step : ∀ v (m : Memory), m.Stacks m.shadow.frame.reserved.tail (action v m).2)
    (owned : ∀ v m, v.OwnedBy m.shadow → (action v m).1.OwnedBy (action v m).2.shadow)
    (vs : List Value) (m : Memory) (h : ∀ v ∈ vs, v.OwnedBy m.shadow) :
    ∀ w ∈ (mapLastFirst action vs m).1, w.OwnedBy (mapLastFirst action vs m).2.shadow := by
  induction vs with
  | nil => exact fun _ hw => nomatch hw
  | cons v rest ih =>
    have stacked := stacks_mapLastFirst step rest m
    have later := ih fun w hw => h w (List.mem_cons_of_mem _ hw)
    intro w hw
    rcases List.mem_cons.mp hw with rfl | hw
    · exact owned v _ (stacked.toGrows.ownedBy (h v List.mem_cons_self))
    · exact (step v _).toGrows.ownedBy (later w hw)

/-- Before the argument itself is wrapped, its properties are, which leaves the frame alone. -/
theorem restoreArgument_apply (levels : Levels) (arg : Value) (m : Memory) :
    ∃ m', m.Spreads m' ∧ restoreArgument levels arg m = wrap levels arg m' := by
  unfold restoreArgument
  rcases arg.object? with _ | id
  · exact ⟨m, refl_of Spreads m, rfl⟩
  · rcases found : m.shadow.frame.trees.get? id with _ | trees
    · refine ⟨m, refl_of Spreads m, ?_⟩
      dsimp only
      rw [bind_apply, get_apply]
      dsimp only
      rw [found]
    · have covers (bounded : m.shadow.Bounded) : m.shadow.Covers trees := fun other mention =>
        bounded other (ShadowState.mentions_of_tree found mention)
      have wrapped := spreads_wrapTrees levels id trees m ⟨refl_of Spreads m, covers⟩
      refine ⟨_, wrapped.1, ?_⟩
      dsimp only
      rw [bind_apply, get_apply]
      dsimp only
      rw [found]
      rfl

theorem stacks_restoreArgument (levels : Levels) (arg : Value) (m : Memory) :
    m.Stacks m.shadow.frame.reserved.tail (restoreArgument levels arg m).2 := by
  obtain ⟨m', spreads, run⟩ := restoreArgument_apply levels arg m
  have wrapped := stacks_wrap levels arg m'
  rw [spreads.stacked.reserved] at wrapped
  rw [run]
  exact spreads.stacked.trans wrapped

/-- However the arguments of a call were passed, one identity is dropped for each. -/
theorem stacks_restoreArguments (levels : Levels) (policy : Policy) (f : Value) (args : List Value)
    (m : Memory) : m.Stacks (m.shadow.frame.reserved.drop args.length)
      (restoreArguments levels policy f args m).2 := by
  unfold restoreArguments
  rw [bind_apply, get_apply]
  dsimp only
  cases policy.passing m f args with
  | stripped => exact stacks_mapLastFirst (stacks_restoreArgument levels) args m
  | wrapped => exact stacks_mapLastFirst (stacks_wrap levels) args m
  | wrappedAfterKey => exact stacks_mapLastFirst (stacks_wrap levels) args m

/-- Arguments that were handed out come back, each under the identity reserved for it. -/
theorem comesBack_restoreArguments (levels : Levels) (policy : Policy) (f : Value) {m m₁ : Memory}
    {vs rs : List Value} {ids below : List Identity} (outs : m.HandedOut vs rs ids)
    (grows : m.Grows m₁) (reserved : m₁.shadow.frame.reserved = ids.reverse ++ below)
    (wraps : m₁.shadow.frame.callType.skipsWrapping = false) :
    List.Forall₂ (m.ComesBack (restoreArguments levels policy f rs m₁).2) vs
      (restoreArguments levels policy f rs m₁).1 := by
  have wrapped := comesBack_mapLastFirst (wrap levels) (stacks_wrap levels)
    (fun _ _ _ _ _ out grows reserved wraps => comesBack_wrap levels out grows reserved wraps)
    outs below m₁ grows reserved wraps
  have restored := comesBack_mapLastFirst (restoreArgument levels)
    (stacks_restoreArgument levels) (fun v r id rest m₁ out grows reserved wraps => by
      obtain ⟨m', spreads, run⟩ := restoreArgument_apply levels r m₁
      rw [run]
      exact comesBack_wrap levels out (grows.trans spreads.toGrows)
        (by rw [spreads.frame, reserved]) (by rw [spreads.frame, wraps]))
    outs below m₁ grows reserved wraps
  unfold restoreArguments
  rw [bind_apply, get_apply]
  dsimp only
  cases policy.passing m₁ f rs with
  | stripped => exact restored
  | wrapped => exact wrapped
  | wrappedAfterKey => exact wrapped

theorem ownedBy_restoreArguments (levels : Levels) (policy : Policy) (f : Value)
    {args : List Value} {m : Memory} (h : ∀ v ∈ args, v.OwnedBy m.shadow) :
    ∀ w ∈ (restoreArguments levels policy f args m).1,
      w.OwnedBy (restoreArguments levels policy f args m).2.shadow := by
  have wrapped := ownedBy_mapLastFirst (stacks_wrap levels)
    (fun _ _ h => ownedBy_wrap levels h) args m h
  unfold restoreArguments
  rw [bind_apply, get_apply]
  dsimp only
  cases policy.passing m f args with
  | stripped =>
    refine ownedBy_mapLastFirst (stacks_restoreArgument levels) (fun v m' owned => ?_) args m h
    obtain ⟨m'', spreads, run⟩ := restoreArgument_apply levels v m'
    rw [run]
    exact ownedBy_wrap levels (spreads.toGrows.ownedBy owned)
  | wrapped => exact wrapped
  | wrappedAfterKey => exact wrapped

end Restoring

end MemoryM

end ShadowTaint
