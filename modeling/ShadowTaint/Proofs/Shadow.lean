import Mathlib.Order.Defs.Unbundled
import ShadowTaint.Shadow.State
/-!
# Facts about the shadow state

Identities are handed out by counting, so an identity that occurs anywhere is below the counter.
This file says what it means to occur, shows that every step of the shadow state keeps the bound,
and says how saving and restoring a frame changes what is saved under each call site.

## Main definitions

- `ShadowState.Mentions`: an identity occurs somewhere in the state.
- `ShadowState.Bounded`: every identity that occurs is below the counter.
- `ShadowState.framesAt`: the frames saved under a call site.
- `Value.OwnedBy`: a shadow whose handle stands for what the shadow carries.
-/

namespace ShadowTaint

/-- The identity occurs in one of the trees. -/
inductive TaintTree.Mentions (id : Identity) : List TaintTree → Prop where
  | here (property : String) (children rest : List TaintTree) :
      Mentions id (⟨property, id, children⟩ :: rest)
  | inside {children : List TaintTree} (property : String) (other : Identity)
      (rest : List TaintTree) (h : Mentions id children) :
      Mentions id (⟨property, other, children⟩ :: rest)
  | later {rest : List TaintTree} (tree : TaintTree) (h : Mentions id rest) :
      Mentions id (tree :: rest)

/-- The identity is reserved in the frame or occurs in its trees. -/
def Frame.Mentions (f : Frame) (id : Identity) : Prop :=
  id ∈ f.reserved ∨ ∃ object trees, f.trees.get? object = some trees ∧ TaintTree.Mentions id trees

/-- The frame with other reserved identities. -/
def Frame.withReserved (f : Frame) (reserved : List Identity) : Frame := { f with reserved }

namespace ShadowState

variable {s s' : ShadowState}

/-- The frames saved under a call site, the last one first. -/
def framesAt (s : ShadowState) (site : CallSite) : List Frame := (s.saved.get? site).getD []

/-- The identity occurs in the taint table, in the table of handles, or in a frame, current or
saved. -/
def Mentions (s : ShadowState) (id : Identity) : Prop :=
  s.entries.contains (.identity id) = true ∨ (∃ raw, (id, raw) ∈ s.wraps) ∨ s.frame.Mentions id ∨
    ∃ site, ∃ f ∈ s.framesAt site, f.Mentions id

/-- Every identity that occurs was handed out before. -/
def Bounded (s : ShadowState) : Prop := ∀ id, s.Mentions id → id.index < s.nextIdentity

/-- Every identity in the trees was handed out before. -/
def Covers (s : ShadowState) (trees : List TaintTree) : Prop :=
  ∀ id, TaintTree.Mentions id trees → id.index < s.nextIdentity

theorem framesAt_of_saved (h : s'.saved = s.saved) (site : CallSite) :
    s'.framesAt site = s.framesAt site := by
  rw [framesAt, framesAt, h]

theorem Bounded.of_mentions (h : s.Bounded) (next : s.nextIdentity ≤ s'.nextIdentity)
    (sub : ∀ id, s'.Mentions id → s.Mentions id ∨ id.index < s'.nextIdentity) : s'.Bounded := by
  intro id mention
  rcases sub id mention with mention | bound
  · exact Nat.lt_of_lt_of_le (h id mention) next
  · exact bound

theorem mentions_of_lookup {v : Value} {id : Identity} {raw : Literal}
    (h : s.lookup? v = some (id, raw)) : s.Mentions id := by
  cases v with
  | shadow handle identity l => exact .inr (.inl ⟨raw, Array.mem_of_getElem? h⟩)
  | literal l => cases h
  | object id => cases h

theorem mentions_of_tree {id : Identity} {object : ObjectId} {trees : List TaintTree}
    (h : s.frame.trees.get? object = some trees) (mention : TaintTree.Mentions id trees) :
    s.Mentions id :=
  .inr (.inr (.inl (.inr ⟨object, trees, h, mention⟩)))

section Identities

theorem bounded_mint (h : s.Bounded) : s.mint.2.Bounded :=
  h.of_mentions (Nat.le_succ _) fun _ mention => .inl mention

theorem bounded_push (h : s.Bounded) {id : Identity} (bound : id.index < s.nextIdentity) :
    (s.push id).Bounded := by
  refine h.of_mentions (Nat.le_refl _) fun other mention => ?_
  rcases mention with entry | handle | (reserved | tree) | saved
  · exact .inl (.inl entry)
  · exact .inl (.inr (.inl handle))
  · rcases List.mem_cons.mp reserved with rfl | reserved
    · exact .inr bound
    · exact .inl (.inr (.inr (.inl (.inl reserved))))
  · exact .inl (.inr (.inr (.inl (.inr tree))))
  · exact .inl (.inr (.inr (.inr saved)))

/-- Reserved identities can be dropped and replaced by others that were handed out before. -/
theorem bounded_withReserved (h : s.Bounded) {reserved : List Identity}
    (bound : ∀ id ∈ reserved, id.index < s.nextIdentity) :
    ({ s with frame := s.frame.withReserved reserved } : ShadowState).Bounded := by
  refine h.of_mentions (Nat.le_refl _) fun other mention => ?_
  rcases mention with entry | handle | (held | tree) | saved
  · exact .inl (.inl entry)
  · exact .inl (.inr (.inl handle))
  · exact .inr (bound other held)
  · exact .inl (.inr (.inr (.inl (.inr tree))))
  · exact .inl (.inr (.inr (.inr saved)))

theorem lt_of_reserved (h : s.Bounded) {id : Identity} (reserved : id ∈ s.frame.reserved) :
    id.index < s.nextIdentity :=
  h id (.inr (.inr (.inl (.inl reserved))))

/-- The identity reserved last is taken, and one is minted where none is left. -/
theorem take_cases (s : ShadowState) :
    (∃ id rest, s.frame.reserved = id :: rest ∧
      s.take = (id, { s with frame := s.frame.withReserved rest })) ∨
    (s.frame.reserved = [] ∧ s.take = s.mint) := by
  unfold take
  rcases hr : s.frame.reserved with _ | ⟨id, rest⟩
  · exact .inr ⟨rfl, rfl⟩
  · exact .inl ⟨id, rest, rfl, rfl⟩

theorem bounded_take (h : s.Bounded) :
    s.take.1.index < s.take.2.nextIdentity ∧ s.take.2.Bounded := by
  rcases s.take_cases with ⟨id, rest, hr, run⟩ | ⟨-, run⟩
  · rw [run]
    refine ⟨lt_of_reserved h (by rw [hr]; exact List.mem_cons_self), ?_⟩
    refine bounded_withReserved h fun other held => lt_of_reserved h ?_
    rw [hr]
    exact List.mem_cons_of_mem _ held
  · rw [run]
    exact ⟨Nat.lt_succ_self _, bounded_mint h⟩

theorem bounded_addHandle (h : s.Bounded) {id : Identity} (bound : id.index < s.nextIdentity)
    (raw : Literal) : (s.addHandle id raw).2.Bounded := by
  refine h.of_mentions (Nat.le_refl _) fun other mention => ?_
  rcases mention with entry | ⟨raw', handle⟩ | mention
  · exact .inl (.inl entry)
  · rcases Array.mem_push.mp handle with handle | eq
    · exact .inl (.inr (.inl ⟨raw', handle⟩))
    · cases eq
      exact .inr bound
  · exact .inl (.inr (.inr mention))

end Identities

section Frames

theorem framesAt_saveFrame (s : ShadowState) (callType : CallType) (site other : CallSite) :
    (s.saveFrame callType site).framesAt other =
      if site = other then s.frame :: s.framesAt site else s.framesAt other := by
  simp only [framesAt, saveFrame, Table.get?_insert]
  split <;> rfl

/-- A frame that is saved last under a call site is restored, and the frames below it stay. -/
theorem restoreFrame_of_framesAt {site : CallSite} {f : Frame} {rest : List Frame}
    (h : s.framesAt site = f :: rest) :
    ∃ saved, s.restoreFrame site = .ok { s with frame := f, saved } ∧
      ∀ other, (saved.get? other).getD [] = if site = other then rest else s.framesAt other := by
  have found : s.saved.get? site = some (f :: rest) := by
    unfold framesAt at h
    rcases hs : s.saved.get? site with _ | frames <;> rw [hs] at h
    · cases h
    · exact congrArg some h
  refine ⟨_, by rw [restoreFrame, found], fun other => ?_⟩
  split
  · rename_i empty
    rw [Table.get?_erase]
    split
    · rw [List.isEmpty_iff.mp empty]
      rfl
    · rfl
  · rw [Table.get?_insert]
    split <;> rfl

/-- Restoring either finds a saved frame or fails. -/
theorem restoreFrame_cases (s : ShadowState) (site : CallSite) :
    (∃ f rest saved, s.framesAt site = f :: rest ∧
      s.restoreFrame site = .ok { s with frame := f, saved } ∧
      ∀ other, (saved.get? other).getD [] = if site = other then rest else s.framesAt other) ∨
    s.restoreFrame site = .error (.unknownCallSite site) := by
  rcases h : s.framesAt site with _ | ⟨f, rest⟩
  · refine .inr ?_
    unfold restoreFrame
    unfold framesAt at h
    rcases hs : s.saved.get? site with _ | frames
    · rfl
    · rw [hs] at h
      change frames = [] at h
      subst h
      rfl
  · obtain ⟨saved, restored, frames⟩ := restoreFrame_of_framesAt h
    exact .inl ⟨f, rest, saved, rfl, restored, frames⟩

/-- A fresh frame may take the place of the current one, and the current one may be saved. -/
theorem bounded_saveFrame (h : s.Bounded) (callType : CallType) (site : CallSite) :
    (s.saveFrame callType site).Bounded := by
  refine h.of_mentions (Nat.le_refl _) fun id mention => .inl ?_
  rcases mention with entry | handle | (reserved | ⟨_, _, mention, _⟩) | ⟨other, f, hf, mention⟩
  · exact .inl entry
  · exact .inr (.inl handle)
  · cases reserved
  · cases mention
  · rw [framesAt_saveFrame] at hf
    split at hf
    · rcases List.mem_cons.mp hf with rfl | hf
      · exact .inr (.inr (.inl mention))
      · exact .inr (.inr (.inr ⟨site, f, hf, mention⟩))
    · exact .inr (.inr (.inr ⟨other, f, hf, mention⟩))

theorem bounded_restoreFrame (h : s.Bounded) {site : CallSite}
    (restored : s.restoreFrame site = .ok s') : s'.Bounded := by
  rcases restoreFrame_cases s site with ⟨f, rest, saved, found, ok, frames⟩ | failed
  · rw [ok] at restored
    cases restored
    refine h.of_mentions (Nat.le_refl _) fun id mention => .inl ?_
    have first : f ∈ s.framesAt site := by
      rw [found]
      exact List.mem_cons_self
    rcases mention with entry | handle | mention | ⟨other, g, hg, mention⟩
    · exact .inl entry
    · exact .inr (.inl handle)
    · exact .inr (.inr (.inr ⟨site, f, first, mention⟩))
    · change g ∈ (saved.get? other).getD [] at hg
      rw [frames other] at hg
      split at hg
      · refine .inr (.inr (.inr ⟨site, g, ?_, mention⟩))
        rw [found]
        exact List.mem_cons_of_mem _ hg
      · exact .inr (.inr (.inr ⟨other, g, hg, mention⟩))
  · rw [failed] at restored
    cases restored

/-- The current frame may be replaced by one in which nothing occurs that was not handed out
before. -/
theorem bounded_withFrame (h : s.Bounded) {f : Frame}
    (bound : ∀ id, f.Mentions id → id.index < s.nextIdentity) :
    ({ s with frame := f } : ShadowState).Bounded := by
  refine h.of_mentions (Nat.le_refl _) fun id mention => ?_
  rcases mention with entry | handle | mention | saved
  · exact .inl (.inl entry)
  · exact .inl (.inr (.inl handle))
  · exact .inr (bound id mention)
  · exact .inl (.inr (.inr (.inr saved)))

end Frames

end ShadowState

/-- A shadow whose handle stands for the identity and the literal that the shadow itself carries;
other values have no handle. -/
def Value.OwnedBy (s : ShadowState) : Value → Prop
  | .shadow handle identity raw => s.wraps[handle.index]? = some (identity, raw)
  | _ => True

theorem Value.ownedBy_of_raw {s : ShadowState} {v : Value} (h : v.raw = v) : v.OwnedBy s := by
  cases v with
  | shadow handle identity raw => cases h
  | literal l => trivial
  | object id => trivial

theorem Value.ownedBy_of_object {s : ShadowState} {v : Value} {id : ObjectId}
    (h : v.object? = some id) : v.OwnedBy s := by
  cases v with
  | object other => trivial
  | literal l => cases h
  | shadow handle identity raw => cases h

theorem ShadowState.raw_valueOf (s : ShadowState) (v : Value) : (s.valueOf v).raw = s.valueOf v := by
  unfold valueOf
  split
  · rfl
  · exact v.raw_raw

/-- A value that is no object stands for a literal. -/
theorem ShadowState.exists_valueOf_of_plain (s : ShadowState) {v : Value} (plain : v.object? = none) :
    ∃ raw, s.valueOf v = .literal raw := by
  cases v with
  | literal raw => exact ⟨raw, rfl⟩
  | object id => cases plain
  | shadow handle identity raw =>
    rw [valueOf]
    split <;> exact ⟨_, rfl⟩

theorem ShadowState.valueOf_of_lookup {s : ShadowState} {v : Value} {id : Identity}
    {raw : Literal} (h : s.lookup? v = some (id, raw)) : s.valueOf v = .literal raw := by
  rw [valueOf, h]

theorem ShadowState.get?_store (s : ShadowState) (v : Value) (e : TaintEntry) (key : TaintKey) :
    (s.store v e).entries.get? key =
      if s.keyOf v = some key then some e else s.entries.get? key := by
  unfold store
  rcases s.keyOf v with _ | own
  · rfl
  · show (s.entries.insert own e).get? key = _
    rw [Table.get?_insert]
    by_cases same : own = key
    · rw [if_pos same, if_pos (congrArg some same)]
    · rw [if_neg same, if_neg fun h => same (Option.some.inj h)]

/-- What is stored depends on the handles and on what was stored before. -/
theorem ShadowState.entries_store {s s' : ShadowState} (wraps : s'.wraps = s.wraps)
    (entries : s'.entries = s.entries) (v : Value) (e : TaintEntry) :
    (s'.store v e).entries = (s.store v e).entries := by
  have own : s'.keyOf v = s.keyOf v := by
    cases v <;> simp only [keyOf, lookup?, wraps]
  unfold store
  rw [own]
  cases s.keyOf v with
  | none => exact entries
  | some key => exact congrArg (·.insert key e) entries

end ShadowTaint
