import ShadowTaint.Proofs.Bookkeeping
/-!
# Taking shadows off whole objects

Whatever an argument reaches loses its shadows before external code runs and gets them back
afterwards. Neither changes the stack of the frame: the identities travel in trees, and every tree
is worked off by reserving an identity and wrapping at once.

## Main statements

- `MemoryM.spreads_stripProperties`: taking the shadows off leaves every frame alone.
- `MemoryM.wrapTree_of_own`: what putting back the shadow of a property does.
- `MemoryM.spreads_wrapTrees`: putting the shadows back leaves every frame alone, too.
-/

namespace ShadowTaint

open Memory

theorem TaintTree.mentions_append {id : Identity} {trees trees' : List TaintTree}
    (h : TaintTree.Mentions id (trees ++ trees')) :
    TaintTree.Mentions id trees ∨ TaintTree.Mentions id trees' := by
  induction trees with
  | nil => exact .inr h
  | cons tree rest ih =>
    cases h with
    | here property children => exact .inl (.here property children rest)
    | inside property other _ h => exact .inl (.inside property other rest h)
    | later _ h => exact (ih h).imp_left (.later tree)

namespace ShadowState

variable {s s' : ShadowState} {trees trees' : List TaintTree}

theorem Covers.mono (h : s.Covers trees) (next : s.nextIdentity ≤ s'.nextIdentity) :
    s'.Covers trees :=
  fun id mention => Nat.lt_of_lt_of_le (h id mention) next

theorem covers_nil (s : ShadowState) : s.Covers [] := fun _ mention => nomatch mention

theorem Covers.append (h : s.Covers trees) (h' : s.Covers trees') : s.Covers (trees ++ trees') := by
  intro id mention
  rcases TaintTree.mentions_append mention with mention | mention
  · exact h id mention
  · exact h' id mention

theorem Covers.tree {id : Identity} (h : s.Covers trees) (bound : id.index < s.nextIdentity)
    (property : String) : s.Covers [⟨property, id, trees⟩] := by
  intro other mention
  cases mention with
  | here => exact bound
  | inside _ _ _ mention => exact h other mention
  | later _ mention => exact nomatch mention

theorem Covers.identity {tree : TaintTree} {rest : List TaintTree} (h : s.Covers (tree :: rest)) :
    tree.identity.index < s.nextIdentity := by
  obtain ⟨property, id, children⟩ := tree
  exact h id (.here property children rest)

theorem Covers.children {tree : TaintTree} {rest : List TaintTree} (h : s.Covers (tree :: rest)) :
    s.Covers tree.children := by
  obtain ⟨property, other, children⟩ := tree
  exact fun id mention => h id (.inside property other rest mention)

theorem Covers.head {tree : TaintTree} {rest : List TaintTree} (h : s.Covers (tree :: rest)) :
    s.Covers [tree] := by
  obtain ⟨property, id, children⟩ := tree
  exact h.children.tree h.identity property

theorem Covers.tail {tree : TaintTree} {rest : List TaintTree} (h : s.Covers (tree :: rest)) :
    s.Covers rest :=
  fun id mention => h id (.later tree mention)

end ShadowState

namespace MemoryM

section Stripping

/-- The frames are left alone, and the trees found so far hold nothing but identities that were
handed out. -/
def Strips (m₀ : Memory) (trees : List TaintTree) (m : Memory) : Prop :=
  m₀.Spreads m ∧ (m₀.shadow.Bounded → m.shadow.Covers trees)

theorem strips_stripProperty {m₀ m : Memory} {trees children : List TaintTree}
    (h : Strips m₀ trees m) (hc : m₀.shadow.Bounded → m.shadow.Covers children) (id : ObjectId)
    (key : String) (child : Value) :
    Strips m₀ (trees ++ [(stripProperty id key children child m).1])
      (stripProperty id key children child m).2 := by
  have found := spreads_identityOf child m
  constructor
  · refine (trans_of Spreads h.1 found).withHeap (Heap.evolves_setProperty _ _ _ _) ?_
    intro _ after
    exact Heap.Holding.setProperty after (fun v hv => Value.ownedBy_of_raw hv) _ _
      (Value.ownedBy_of_raw (ShadowState.raw_valueOf _ child))
  · intro bounded
    refine ((h.2 bounded).mono found.minted).append (.tree ((hc bounded).mono found.minted) ?_ key)
    exact identityOf_lt child (h.1.bounded bounded)

/-- Every turn of the loop over the keys finds one more tree or none. -/
theorem strips_foldlM {f : List TaintTree × List ObjectId → String →
      MemoryM (List TaintTree × List ObjectId)} {m₀ : Memory}
    (step : ∀ m acc key, Strips m₀ acc.1 m → Strips m₀ (f acc key m).1.1 (f acc key m).2)
    (keys : List String) (acc : List TaintTree × List ObjectId) (m : Memory)
    (h : Strips m₀ acc.1 m) : Strips m₀ (keys.foldlM f acc m).1.1 (keys.foldlM f acc m).2 := by
  induction keys generalizing acc m with
  | nil => exact h
  | cons key rest ih =>
    rw [List.foldlM_cons]
    exact ih _ _ (step m acc key h)

theorem strips_stripProperties (depth : Nat) (id : ObjectId) (visited : List ObjectId)
    (m : Memory) : Strips m (stripProperties depth id visited m).1.1
      (stripProperties depth id visited m).2 := by
  induction depth generalizing id visited m with
  | zero => exact ⟨refl_of Spreads m, fun _ => ShadowState.covers_nil _⟩
  | succ depth ih =>
    rw [stripProperties]
    refine strips_foldlM ?_ _ _ m ⟨refl_of Spreads m, fun _ => ShadowState.covers_nil _⟩
    rintro m' ⟨trees, visited⟩ key h
    dsimp only
    rw [bind_apply, get_apply]
    dsimp only
    rcases m'.objectOf? (m'.heap.getProperty id key) with _ | child
    · exact strips_stripProperty h (fun _ => ShadowState.covers_nil _) id key _
    · dsimp only
      by_cases seen : child ∈ visited
      · rw [if_pos seen]
        exact h
      · rw [if_neg seen]
        -- the level below starts from here, and its trees become children of this one
        have below := ih child (child :: visited) m'
        refine strips_stripProperty ⟨trans_of Spreads h.1 below.1, fun bounded =>
          (h.2 bounded).mono below.1.minted⟩ (fun bounded => below.2 (h.1.bounded bounded)) id key _

/-- Taking the shadows off an object puts one identity on the stack, and the object itself is handed
out. -/
theorem stacks_unwrapObject (v : Value) (m : Memory) :
    ∃ id, m.HandsOut v (unwrapObject v m).1.1 id ∧
      m.Stacks (id :: m.shadow.frame.reserved) (unwrapObject v m).2 := by
  unfold unwrapObject
  rw [bind_apply, get_apply]
  dsimp only
  rcases m.objectOf? v with _ | object
  · exact stacks_unwrap v m
  · have stripped := strips_stripProperties m.heap.objects.size object [object] m
    obtain ⟨id, out, unwrapped⟩ := stacks_unwrap v
      (stripProperties m.heap.objects.size object [object] m).2
    rw [stripped.1.stacked.reserved] at unwrapped
    exact ⟨id, out.mono stripped.1.toGrows, stripped.1.stacked.trans unwrapped⟩

theorem covers_unwrapObject (v : Value) {m : Memory} (h : m.shadow.Bounded) :
    (unwrapObject v m).2.shadow.Covers (unwrapObject v m).1.2 := by
  unfold unwrapObject
  rw [bind_apply, get_apply]
  dsimp only
  rcases m.objectOf? v with _ | object
  · exact ShadowState.covers_nil _
  · have stripped := strips_stripProperties m.heap.objects.size object [object] m
    obtain ⟨id, -, unwrapped⟩ := stacks_unwrap v
      (stripProperties m.heap.objects.size object [object] m).2
    exact (stripped.2 h).mono unwrapped.minted

theorem raw_unwrapObject (v : Value) (m : Memory) :
    (unwrapObject v m).1.1.raw = (unwrapObject v m).1.1 := by
  unfold unwrapObject
  rw [bind_apply, get_apply]
  dsimp only
  rcases m.objectOf? v with _ | object
  · exact raw_unwrap v m
  · exact raw_unwrap v _

end Stripping

section Restoring

section Own

variable {levels : Levels} {m m' : Memory} {id : ObjectId} {key : String} {identity : Identity}
  {children : List TaintTree} {w : Value} (own : m.heap.hasOwnKey id key = true)
  (run : wrap levels (m.heap.getProperty id key) { m with shadow := m.shadow.push identity } = (w, m'))
include own run

/-- A property is wrapped under the identity of its tree, and what lies below it is, if it is an object.
Then it is stored again. -/
theorem wrapTree_of_own :
    (wrapTree levels id ⟨key, identity, children⟩ m).2 =
      (modifyHeap (·.setProperty id key w) (w.object?.elim m' fun child =>
        (wrapTrees levels child children m').2)).2 := by
  rw [wrapTree, bind_apply, get_apply]
  dsimp only
  rw [if_pos own, bind_apply, bind_apply, get_apply, bind_apply]
  have pushed : modifyShadow (·.push identity) m = ((), { m with shadow := m.shadow.push identity }) := rfl
  simp only [pushed, run]
  rcases w.object? with _ | child <;> rfl

theorem wrapTree_of_literal (object : w.object? = none) :
    (wrapTree levels id ⟨key, identity, children⟩ m).2 =
      { m' with heap := m'.heap.setProperty id key w } := by
  rw [wrapTree_of_own own run, object]
  rfl

theorem wrapTree_of_object {child : ObjectId} (object : w.object? = some child) :
    (wrapTree levels id ⟨key, identity, children⟩ m).2 =
      { (wrapTrees levels child children m').2 with
        heap := (wrapTrees levels child children m').2.heap.setProperty id key w } := by
  rw [wrapTree_of_own own run, object]
  rfl

end Own

theorem wrapTree_of_missing (levels : Levels) {m : Memory} {id : ObjectId} {key : String}
    (identity : Identity) (children : List TaintTree) (missing : ¬ m.heap.hasOwnKey id key = true) :
    (wrapTree levels id ⟨key, identity, children⟩ m).2 = m := by
  rw [wrapTree, bind_apply, get_apply]
  dsimp only
  rw [if_neg missing]
  rfl

/-- Wrapping one property reserves the identity of its tree and drops it again. -/
theorem spreads_wrapProperty (levels : Levels) {m₀ m : Memory} {tree : TaintTree}
    (h : Strips m₀ [tree] m) (v : Value) :
    m₀.Spreads (wrap levels v { m with shadow := m.shadow.push tree.identity }).2 := by
  have pushed : m₀.Stacks (tree.identity :: m₀.shadow.frame.reserved)
      { m with shadow := m.shadow.push tree.identity } :=
    { toKeeps := h.1.toKeeps.withShadow (fun _ _ known => known) (Nat.le_refl _)
        fun before after => ShadowState.bounded_push after (h.2 before).identity
      frame := by
        show m.shadow.frame.withReserved (tree.identity :: m.shadow.frame.reserved) = _
        rw [h.1.frame]
      saved := h.1.saved
      context := h.1.context }
  have wrapped := stacks_wrap levels v { m with shadow := m.shadow.push tree.identity }
  rw [pushed.reserved] at wrapped
  exact (pushed.trans wrapped).spreads

/-- The property is put back with its shadow. -/
theorem spreads_putBack {m₀ m : Memory} (h : m₀.Spreads m) {v : Value}
    (owned : m₀.Sound → v.OwnedBy m.shadow) (id : ObjectId) (key : String) :
    m₀.Spreads { m with heap := m.heap.setProperty id key v } :=
  h.withHeap (Heap.evolves_setProperty _ _ _ _) fun before after =>
    Heap.Holding.setProperty after (fun _ hv => Value.ownedBy_of_raw hv) _ _ (owned before)

mutual

theorem spreads_wrapTree (levels : Levels) (id : ObjectId) {m₀ : Memory} :
    ∀ (tree : TaintTree) (m : Memory), Strips m₀ [tree] m →
      m₀.Spreads (wrapTree levels id tree m).2 ∧
        m.shadow.nextIdentity ≤ (wrapTree levels id tree m).2.shadow.nextIdentity
  | ⟨key, identity, children⟩, m, h => by
    by_cases own : m.heap.hasOwnKey id key = true
    · let m₁ : Memory := { m with shadow := m.shadow.push identity }
      let v := m.heap.getProperty id key
      have wrapped := spreads_wrapProperty levels h v
      have minted : m.shadow.nextIdentity ≤ (wrap levels v m₁).2.shadow.nextIdentity :=
        (stacks_wrap levels v m₁).minted
      have owned (sound : m₀.Sound) : (wrap levels v m₁).1.OwnedBy (wrap levels v m₁).2.shadow :=
        ownedBy_wrap levels (HeapObject.Holding.property (h.1.sound sound id)
          (fun _ hv => Value.ownedBy_of_raw hv) key)
      rcases object : (wrap levels v m₁).1.object? with _ | child
      · rw [wrapTree_of_literal own rfl object]
        exact ⟨spreads_putBack wrapped owned id key, minted⟩
      · have below := spreads_wrapTrees levels child children (wrap levels v m₁).2
          ⟨wrapped, fun bounded => (h.2 bounded).children.mono minted⟩
        rw [wrapTree_of_object own rfl object]
        exact ⟨spreads_putBack below.1 (fun _ => Value.ownedBy_of_object object) id key,
          Nat.le_trans minted below.2⟩
    · rw [wrapTree_of_missing levels identity children own]
      exact ⟨h.1, Nat.le_refl _⟩

theorem spreads_wrapTrees (levels : Levels) (id : ObjectId) {m₀ : Memory} :
    ∀ (trees : List TaintTree) (m : Memory), Strips m₀ trees m →
      m₀.Spreads (wrapTrees levels id trees m).2 ∧
        m.shadow.nextIdentity ≤ (wrapTrees levels id trees m).2.shadow.nextIdentity
  | [], m, h => by
    rw [wrapTrees]
    exact ⟨h.1, Nat.le_refl _⟩
  | tree :: rest, m, h => by
    rw [wrapTrees, bind_apply]
    have first := spreads_wrapTree levels id tree m ⟨h.1, fun bounded => (h.2 bounded).head⟩
    have later := spreads_wrapTrees levels id rest (wrapTree levels id tree m).2
      ⟨first.1, fun bounded => (h.2 bounded).tail.mono first.2⟩
    exact ⟨later.1, Nat.le_trans first.2 later.2⟩

end

end Restoring

end MemoryM

end ShadowTaint
