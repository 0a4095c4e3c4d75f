import ShadowTaint.Policy.Wrap
import ShadowTaint.Proofs.Memory
/-!
# Taking shadows off and putting them back

A hook before an operation puts the identities of the operands on a stack, and the hook after it
takes them off again. This file has for each of the steps what it does to the stack and which value
comes out of it.

## Main definitions

- `Memory.Stacks`: a step keeps everything, and afterwards the given identities are reserved.
- `Memory.Issues`: a step only gives out identities and handles.
- `Memory.HandsOut`, `Memory.ComesBack`: how an operand is handed to the host, and what the host
  gets back for it.

## Main statements

- `MemoryM.stacks_unwrap`: taking a shadow off reserves one identity, which is that of the shadow.
- `MemoryM.settle_cases`: what wrapping does to a container.
- `MemoryM.stacks_wrap`: wrapping drops the identity reserved last, whatever the policy.
- `MemoryM.comesBack_wrap`: an operand comes back under the identity reserved for it.
-/

namespace ShadowTaint

theorem CallType.skipsWrapping_eq_false_iff {c : CallType} :
    c.skipsWrapping = false ↔ c = .internal ∨ c = .external := by
  cases c <;> decide

namespace Memory

/-- Everything is kept, no frame is saved or restored, and the given identities are reserved
afterwards, the last one first. -/
structure Stacks (ids : List Identity) (m m' : Memory) : Prop extends Keeps m m' where
  frame : m'.shadow.frame = m.shadow.frame.withReserved ids
  saved : m'.shadow.saved = m.shadow.saved
  context : m'.shadow.context = m.shadow.context

namespace Stacks

variable {m m' m'' : Memory} {ids ids' : List Identity}

theorem refl (m : Memory) : m.Stacks m.shadow.frame.reserved m :=
  ⟨refl_of Keeps m, rfl, rfl, rfl⟩

theorem trans (first : m.Stacks ids m') (second : m'.Stacks ids' m'') : m.Stacks ids' m'' where
  toKeeps := first.toKeeps.trans second.toKeeps
  frame := by
    rw [second.frame, first.frame]
    rfl
  saved := second.saved.trans first.saved
  context := second.context.trans first.context

theorem reserved (h : m.Stacks ids m') : m'.shadow.frame.reserved = ids := by
  rw [h.frame]
  rfl

theorem callType (h : m.Stacks ids m') :
    m'.shadow.frame.callType = m.shadow.frame.callType := by
  rw [h.frame]
  rfl

/-- Where the same identities are reserved as before, no frame has changed. -/
theorem spreads (h : m.Stacks m.shadow.frame.reserved m') : m.Spreads m' where
  toKeeps := h.toKeeps
  frame := h.frame
  saved := h.saved
  context := h.context

end Stacks

/-- Identities and handles may be given out, but the heap and what is recorded about taint are the
same. -/
structure Issues (m m' : Memory) : Prop where
  heap : m'.heap = m.heap
  entries : m'.shadow.entries = m.shadow.entries

instance : IsPreorder Memory Issues where
  refl _ := ⟨rfl, rfl⟩
  trans _ _ _ first second :=
    ⟨second.heap.trans first.heap, second.entries.trans first.entries⟩

/-- A value is handed to the host as another one, and an identity is reserved for it: that of the
shadow, if the value is a known one. An object is handed over as it is. -/
structure HandsOut (m : Memory) (v r : Value) (id : Identity) : Prop where
  shadow : ∀ known raw, m.shadow.lookup? v = some (known, raw) →
    id = known ∧ (r = v ∨ r = .literal raw)
  object : ∀ o, v = .object o → r = v

/-- What comes back for a value: for a known shadow a shadow with its identity and its literal, for
an object the object. -/
structure ComesBack (m m' : Memory) (v w : Value) : Prop where
  shadow : ∀ id raw, m.shadow.lookup? v = some (id, raw) →
    m'.shadow.lookup? w = some (id, raw) ∧ (w = v ∨ ∃ handle, w = .shadow handle id raw)
  object : ∀ o, v = .object o → w = v

theorem HandsOut.mono {m m' : Memory} {v r : Value} {id : Identity} (h : m'.HandsOut v r id)
    (grows : m.Grows m') : m.HandsOut v r id where
  shadow known raw found := h.shadow known raw (grows.lookup? found)
  object := h.object

theorem ComesBack.mono {m m' m'' : Memory} {v w : Value} (h : m.ComesBack m' v w)
    (grows : m'.Grows m'') : m.ComesBack m'' v w where
  shadow id raw found := ⟨grows.lookup? (h.shadow id raw found).1, (h.shadow id raw found).2⟩
  object := h.object

/-- A value that is left alone comes back. -/
theorem Grows.comesBack {m m' : Memory} (h : m.Grows m') (v : Value) : m.ComesBack m' v v where
  shadow _ _ found := ⟨h.lookup? found, .inl rfl⟩
  object _ _ := rfl

theorem Spreads.stacked {m m' : Memory} (h : m.Spreads m') :
    m.Stacks m.shadow.frame.reserved m' where
  toKeeps := h.toKeeps
  frame := h.frame
  saved := h.saved
  context := h.context

end Memory

open Memory

theorem ObjectKind.becomes_withHeld (values : List Value) (k : ObjectKind) :
    k.Becomes (k.withHeld values) := by
  cases k <;> simp [Becomes, withHeld]

theorem ObjectKind.Holding.withHeld {P : Value → Prop} {k : ObjectKind} (hk : k.Holding P)
    {values : List Value} (hv : ∀ v ∈ values, P v) : (k.withHeld values).Holding P := by
  cases k with
  | array elements => exact hv
  | set members => exact hv
  | map entries =>
    intro e he
    obtain ⟨i, hi, rfl⟩ := List.getElem_of_mem he
    simp only [List.getElem_zipWith]
    simp only [List.length_zipWith] at hi
    exact ⟨(hk _ (List.getElem_mem (by omega))).1, hv _ (List.getElem_mem (by omega))⟩
  | _ => exact hk

/-- The values that a container holds have a property that all values on the heap have. -/
theorem ObjectKind.Holding.held {P : Value → Prop} {k : ObjectKind} (hk : k.Holding P)
    {c : Container} {values : List Value} (held : k.held? c = some values) : ∀ v ∈ values, P v := by
  cases c <;> cases k <;> cases held
  · exact hk
  · intro v hv
    obtain ⟨e, he, rfl⟩ := List.mem_map.mp hv
    exact (hk e he).2
  · exact hk

namespace MemoryM

section Identities

theorem identityOf_cases (v : Value) (m : Memory) :
    (∃ id raw, m.shadow.lookup? v = some (id, raw) ∧ identityOf v m = (id, m)) ∨
      (m.shadow.lookup? v = none ∧
        identityOf v m = (m.shadow.mint.1, { m with shadow := m.shadow.mint.2 })) := by
  unfold identityOf
  rw [bind_apply, get_apply]
  rcases found : m.shadow.lookup? v with _ | ⟨id, raw⟩
  · exact .inr ⟨rfl, rfl⟩
  · exact .inl ⟨id, raw, rfl, rfl⟩

theorem spreads_mint (m : Memory) : m.Spreads { m with shadow := m.shadow.mint.2 } where
  evolves := .refl _
  known _ _ h := h
  minted := Nat.le_succ _
  bounded h := ShadowState.bounded_mint h
  sound := sound_of_known rfl fun _ _ h => h
  frame := rfl
  saved := rfl
  context := rfl

theorem spreads_identityOf (v : Value) : Within Spreads (identityOf v) := by
  intro m
  rcases identityOf_cases v m with ⟨id, raw, -, run⟩ | ⟨-, run⟩
  · rw [run]
    exact refl_of Spreads m
  · rw [run]
    exact spreads_mint m

theorem identityOf_lt (v : Value) {m : Memory} (h : m.shadow.Bounded) :
    (identityOf v m).1.index < (identityOf v m).2.shadow.nextIdentity := by
  rcases identityOf_cases v m with ⟨id, raw, found, run⟩ | ⟨-, run⟩
  · rw [run]
    exact h id (ShadowState.mentions_of_lookup found)
  · rw [run]
    exact Nat.lt_succ_self _

theorem identityOf_known {v : Value} {m : Memory} {id : Identity} {raw : Literal}
    (h : m.shadow.lookup? v = some (id, raw)) : (identityOf v m).1 = id := by
  rcases identityOf_cases v m with ⟨id', raw', found, run⟩ | ⟨missing, -⟩
  · rw [run]
    rw [h] at found
    cases found
    rfl
  · rw [h] at missing
    cases missing

/-- Reserving the identity of a value puts one identity on the stack, and the value is handed out as
it is. -/
theorem stacks_reserve (v : Value) (m : Memory) :
    ∃ id, m.HandsOut v v id ∧ m.Stacks (id :: m.shadow.frame.reserved) (reserve v m).2 := by
  have first := spreads_identityOf v m
  refine ⟨(identityOf v m).1, ⟨fun known raw h => ⟨identityOf_known h, .inl rfl⟩,
    fun _ _ => rfl⟩, ?_⟩
  exact {
    toKeeps := first.toKeeps.withShadow (fun _ _ h => h) (Nat.le_refl _) fun before after =>
      ShadowState.bounded_push after (identityOf_lt v before)
    frame := by
      change (identityOf v m).2.shadow.frame.withReserved
        (_ :: (identityOf v m).2.shadow.frame.reserved) = _
      rw [first.frame]
      rfl
    saved := first.saved
    context := first.context }

/-- Taking a shadow off puts one identity on the stack, and what lies behind the value is handed
out. -/
theorem stacks_unwrap (v : Value) (m : Memory) :
    ∃ id, m.HandsOut v (unwrap v m).1 id ∧
      m.Stacks (id :: m.shadow.frame.reserved) (unwrap v m).2 := by
  obtain ⟨id, out, stacked⟩ := stacks_reserve v m
  refine ⟨id, ⟨fun known raw found => ⟨(out.shadow known raw found).1, .inr ?_⟩, ?_⟩, stacked⟩
  · exact ShadowState.valueOf_of_lookup found
  · rintro o rfl
    rfl

theorem raw_unwrap (v : Value) (m : Memory) : (unwrap v m).1.raw = (unwrap v m).1 :=
  m.shadow.raw_valueOf v

/-- Taking an identity takes the one reserved last off the stack. -/
theorem stacks_takeIdentity (m : Memory) :
    m.Stacks m.shadow.frame.reserved.tail (takeIdentity m).2 := by
  rcases m.shadow.take_cases with ⟨id, rest, hr, run⟩ | ⟨hr, run⟩
  · have eq : takeIdentity m =
        (id, { m with shadow := { m.shadow with frame := m.shadow.frame.withReserved rest } }) := by
      rw [takeIdentity, stepShadow, run]
    rw [eq, hr]
    refine ⟨(refl_of Keeps m).withShadow (fun _ _ h => h) (Nat.le_refl _) fun _ h => ?_,
      rfl, rfl, rfl⟩
    have bounded := (ShadowState.bounded_take h).2
    rwa [run] at bounded
  · have eq : takeIdentity m = (m.shadow.mint.1, { m with shadow := m.shadow.mint.2 }) := by
      rw [takeIdentity, stepShadow, run]
    rw [eq, hr]
    have minted := (spreads_mint m).stacked
    rwa [hr] at minted

theorem takeIdentity_lt {m : Memory} (h : m.shadow.Bounded) :
    (takeIdentity m).1.index < (takeIdentity m).2.shadow.nextIdentity :=
  (ShadowState.bounded_take h).1

theorem takeIdentity_of_reserved {m : Memory} {id : Identity} {rest : List Identity}
    (h : m.shadow.frame.reserved = id :: rest) : (takeIdentity m).1 = id := by
  rcases m.shadow.take_cases with ⟨id', rest', hr, run⟩ | ⟨hr, -⟩
  · rw [h] at hr
    cases hr
    exact congrArg Prod.fst run
  · rw [h] at hr
    cases hr

theorem takeIdentity_of_empty {m : Memory} (h : m.shadow.frame.reserved = []) :
    (takeIdentity m).1 = ⟨m.shadow.nextIdentity⟩ := by
  rcases m.shadow.take_cases with ⟨id, rest, hr, -⟩ | ⟨-, run⟩
  · rw [h] at hr
    cases hr
  · exact congrArg Prod.fst run

theorem stacks_discard (m : Memory) : m.Stacks m.shadow.frame.reserved.tail (discard m).2 :=
  stacks_takeIdentity m

end Identities

section Handles

theorem shadow_of_skips {m : Memory} (h : m.shadow.frame.callType.skipsWrapping = true)
    (id : Identity) (raw : Literal) : shadow id raw m = (.literal raw, m) := by
  unfold shadow
  rw [bind_apply, get_apply]
  simp only [h, if_true]
  rfl

theorem shadow_of_wraps {m : Memory} (h : m.shadow.frame.callType.skipsWrapping = false)
    (id : Identity) (raw : Literal) :
    shadow id raw m = (.shadow ⟨m.shadow.wraps.size⟩ id raw,
      { m with shadow := (m.shadow.addHandle id raw).2 }) := by
  unfold shadow
  rw [bind_apply, get_apply]
  simp only [h]
  rfl

theorem known_addHandle (s : ShadowState) (id : Identity) (raw : Literal) (i : Nat)
    (x : Identity × Literal) (h : s.wraps[i]? = some x) :
    (s.addHandle id raw).2.wraps[i]? = some x := by
  have hi : i < s.wraps.size := by
    refine Nat.lt_of_not_le fun beyond => ?_
    rw [Array.getElem?_eq_none beyond] at h
    cases h
  change (s.wraps.push (id, raw))[i]? = some x
  rw [Array.getElem?_push, if_neg (Nat.ne_of_lt hi), h]

/-- Giving a literal a shadow keeps what earlier steps kept, if the identity comes from them. -/
theorem keeps_shadow {m m' : Memory} (h : m.Keeps m') {id : Identity}
    (bound : m.shadow.Bounded → id.index < m'.shadow.nextIdentity) (raw : Literal) :
    m.Keeps (shadow id raw m').2 := by
  rcases skips : m'.shadow.frame.callType.skipsWrapping
  · rw [shadow_of_wraps skips]
    exact h.withShadow (known_addHandle _ id raw) (Nat.le_refl _) fun before after =>
      ShadowState.bounded_addHandle after (bound before) raw
  · rw [shadow_of_skips skips]
    exact h

/-- Whatever a literal is given, the stack and the saved frames stay. -/
theorem frame_shadow (id : Identity) (raw : Literal) (m : Memory) :
    (shadow id raw m).2.shadow.frame = m.shadow.frame ∧
      (shadow id raw m).2.shadow.saved = m.shadow.saved ∧
      (shadow id raw m).2.shadow.context = m.shadow.context := by
  rcases skips : m.shadow.frame.callType.skipsWrapping
  · rw [shadow_of_wraps skips]
    exact ⟨rfl, rfl, rfl⟩
  · rw [shadow_of_skips skips]
    exact ⟨rfl, rfl, rfl⟩

theorem lookup_shadow (id : Identity) (raw : Literal) {m : Memory}
    (wraps : m.shadow.frame.callType.skipsWrapping = false) :
    ∃ handle, (shadow id raw m).1 = .shadow handle id raw ∧
      (shadow id raw m).2.shadow.lookup? (.shadow handle id raw) = some (id, raw) := by
  rw [shadow_of_wraps wraps]
  refine ⟨_, rfl, ?_⟩
  change (m.shadow.wraps.push (id, raw))[m.shadow.wraps.size]? = some (id, raw)
  exact Array.getElem?_push_size

theorem ownedBy_shadow (id : Identity) (raw : Literal) (m : Memory) :
    (shadow id raw m).1.OwnedBy (shadow id raw m).2.shadow := by
  rcases skips : m.shadow.frame.callType.skipsWrapping
  · obtain ⟨handle, eq, found⟩ := lookup_shadow id raw skips
    rw [eq]
    exact found
  · rw [shadow_of_skips skips]
    trivial

theorem spreads_wrapFresh (v : Value) : Within Spreads (wrapFresh v) := by
  intro m
  cases v with
  | literal raw =>
    have minted := spreads_mint m
    have frames := frame_shadow m.shadow.mint.1 raw { m with shadow := m.shadow.mint.2 }
    exact {
      toKeeps := keeps_shadow minted.toKeeps (fun _ => Nat.lt_succ_self _) raw
      frame := frames.1
      saved := frames.2.1
      context := frames.2.2 }
  | object id => exact refl_of Spreads m
  | shadow handle identity raw => exact refl_of Spreads m

theorem ownedBy_wrapFresh {v : Value} {m : Memory} (h : v.OwnedBy m.shadow) :
    (wrapFresh v m).1.OwnedBy (wrapFresh v m).2.shadow := by
  cases v with
  | literal raw => exact ownedBy_shadow _ raw _
  | object id => trivial
  | shadow handle identity raw => exact h

end Handles

section Containers

/-- What a container holds is put back as it is held, and the stack is as before. -/
theorem spreads_hold (grain : Grain) (v : Value) : Within Spreads (hold grain v) := by
  intro m
  cases grain with
  | imprecise =>
    obtain ⟨id, -, first⟩ := stacks_unwrap v m
    have second := stacks_discard (unwrap v m).2
    rw [first.reserved] at second
    exact (first.trans second).spreads
  | precise => exact spreads_wrapFresh v m

theorem ownedBy_hold (grain : Grain) {v : Value} {m : Memory} (h : v.OwnedBy m.shadow) :
    (hold grain v m).1.OwnedBy (hold grain v m).2.shadow := by
  cases grain with
  | imprecise => exact Value.ownedBy_of_raw (raw_unwrap v m)
  | precise => exact ownedBy_wrapFresh h

/-- An action that owns what it makes of one value owns what it makes of many. -/
theorem ownedBy_mapM {f : Value → MemoryM Value} (grows : ∀ v, Within Grows (f v))
    (owned : ∀ v m, v.OwnedBy m.shadow → (f v m).1.OwnedBy (f v m).2.shadow) (vs : List Value)
    (m : Memory) (h : ∀ v ∈ vs, v.OwnedBy m.shadow) :
    ∀ w ∈ (vs.mapM f m).1, w.OwnedBy (vs.mapM f m).2.shadow := by
  induction vs generalizing m with
  | nil => exact fun _ hw => nomatch hw
  | cons v rest ih =>
    rw [List.mapM_cons]
    have first := owned v m (h v List.mem_cons_self)
    have later := ih (f v m).2 fun w hw =>
      (grows v m).ownedBy (h w (List.mem_cons_of_mem _ hw))
    intro w hw
    rcases List.mem_cons.mp hw with rfl | hw
    · exact (Within.mapM grows rest (f v m).2).ownedBy first
    · exact later w hw

/-- Settling a value settles what it holds, if it is a container of the kind that the policy is about,
and otherwise it does nothing. -/
theorem settle_cases (policy : Policy) (v : Value) (m : Memory) :
    (∃ c grain id values, policy = .container c grain ∧ m.objectOf? v = some id ∧
      m.heap.held? c id = some values ∧ (settle policy v m).2 =
        (modifyHeap (·.setHeld id (values.mapM (hold grain) m).1) (values.mapM (hold grain) m).2).2) ∨
    ((settle policy v m).2 = m ∧ ∀ c grain id, policy = .container c grain →
      m.objectOf? v = some id → m.heap.held? c id = none) := by
  unfold settle
  split
  · rename_i c grain
    rw [bind_apply, get_apply]
    dsimp only
    rcases objectOf : m.objectOf? v with _ | id
    · exact .inr ⟨rfl, fun _ _ _ _ impossible => nomatch impossible⟩
    · rcases held : m.heap.held? c id with _ | values
      · simp only [held]
        refine .inr ⟨rfl, fun c' _ id' policy object => ?_⟩
        cases policy
        cases object
        exact held
      · simp only [held]
        exact .inl ⟨c, grain, id, values, rfl, rfl, held, rfl⟩
  · rename_i other
    exact .inr ⟨rfl, fun c grain _ policy _ => (other c grain policy).elim⟩

theorem settle_of_held {c : Container} {grain : Grain} {v : Value} {id : ObjectId}
    {values : List Value} {m : Memory} (object : m.objectOf? v = some id)
    (held : m.heap.held? c id = some values) :
    (settle (.container c grain) v m).2 =
      (modifyHeap (·.setHeld id (values.mapM (hold grain) m).1) (values.mapM (hold grain) m).2).2 := by
  rcases settle_cases (.container c grain) v m with
    ⟨_, _, _, _, ⟨⟩, object', held', settled⟩ | ⟨-, unheld⟩
  · rw [object] at object'
    cases object'
    rw [held] at held'
    cases held'
    exact settled
  · rw [unheld c grain id rfl object] at held
    cases held

theorem spreads_settle (policy : Policy) (v : Value) : Within Spreads (settle policy v) := by
  intro m
  rcases settle_cases policy v m with ⟨c, grain, id, values, -, -, held, settled⟩ | ⟨same, -⟩
  · rw [settled]
    have spreads := spreads_hold grain
    refine (Within.mapM spreads values m).withHeap
      (Heap.evolves_modify _ (ObjectKind.becomes_withHeld _ _)) ?_
    intro before after
    have owned := ownedBy_mapM (fun v => (spreads v).keeps.grows)
      (fun v m => ownedBy_hold grain) values m (ObjectKind.Holding.held (before id).kind held)
    exact Heap.Holding.modify after fun ho => ⟨ho.kind.withHeld owned, ho.properties⟩
  · rw [same]
    exact refl_of Spreads m

theorem wrap_bare (levels : Levels) (raw : Literal) (m : Memory) :
    wrap levels (.literal raw) m = shadow (takeIdentity m).1 raw (takeIdentity m).2 := rfl

/-- Wrapping drops the identity reserved last, whatever the value and its policy are. -/
theorem stacks_wrap (levels : Levels) (v : Value) (m : Memory) :
    m.Stacks m.shadow.frame.reserved.tail (wrap levels v m).2 := by
  have composite : ∀ policy, m.Stacks m.shadow.frame.reserved.tail
      (discard (settle policy v m).2).2 := by
    intro policy
    have settled := (spreads_settle policy v m).stacked
    have dropped := stacks_discard (settle policy v m).2
    rw [settled.reserved] at dropped
    exact settled.trans dropped
  cases v with
  | literal raw =>
    have taken := stacks_takeIdentity m
    have frames := frame_shadow (takeIdentity m).1 raw (takeIdentity m).2
    exact {
      toKeeps := keeps_shadow taken.toKeeps takeIdentity_lt raw
      frame := frames.1.trans taken.frame
      saved := frames.2.1.trans taken.saved
      context := frames.2.2.trans taken.context }
  | object id => exact composite _
  | shadow handle identity raw => exact composite _

theorem ownedBy_wrap (levels : Levels) {v : Value} {m : Memory} (h : v.OwnedBy m.shadow) :
    (wrap levels v m).1.OwnedBy (wrap levels v m).2.shadow := by
  have grown := (stacks_wrap levels v m).toGrows
  cases v with
  | literal raw => exact ownedBy_shadow _ raw _
  | object id => trivial
  | shadow handle identity raw => exact grown.ownedBy h

/-- A value that is no bare literal stays what it is. -/
theorem wrap_of_not_bare (levels : Levels) {v : Value} (h : v.isBareLiteral = false) (m : Memory) :
    (wrap levels v m).1 = v := by
  cases v with
  | literal raw => cases h
  | object id => rfl
  | shadow handle identity raw => rfl

/-- A literal comes back with a shadow under the identity reserved last, where literals get
shadows. -/
theorem wrap_literal (levels : Levels) {m : Memory} {id : Identity} {rest : List Identity}
    (reserved : m.shadow.frame.reserved = id :: rest)
    (wraps : m.shadow.frame.callType.skipsWrapping = false) (raw : Literal) :
    ∃ handle, (wrap levels (.literal raw) m).1 = .shadow handle id raw ∧
      (wrap levels (.literal raw) m).2.shadow.lookup? (.shadow handle id raw) = some (id, raw) := by
  have callType := (stacks_takeIdentity m).callType
  rw [wrap_bare, takeIdentity_of_reserved reserved]
  exact lookup_shadow id raw (by rw [callType, wraps])

/-- A literal for which nothing was reserved comes back with a shadow under a new identity. -/
theorem wrap_literal_fresh (levels : Levels) {m : Memory} (reserved : m.shadow.frame.reserved = [])
    (wraps : m.shadow.frame.callType.skipsWrapping = false) (raw : Literal) :
    ∃ handle, (wrap levels (.literal raw) m).1 =
      .shadow handle ⟨m.shadow.nextIdentity⟩ raw := by
  have callType := (stacks_takeIdentity m).callType
  rw [wrap_bare, takeIdentity_of_empty reserved]
  obtain ⟨handle, eq, -⟩ := lookup_shadow ⟨m.shadow.nextIdentity⟩ raw (m := (takeIdentity m).2)
    (by rw [callType, wraps])
  exact ⟨handle, eq⟩

/-- An operand that was handed out comes back under the identity reserved for it, where literals get
shadows. -/
theorem comesBack_wrap (levels : Levels) {m m₁ : Memory} {v r : Value} {id : Identity}
    {rest : List Identity} (out : m.HandsOut v r id) (grows : m.Grows m₁)
    (reserved : m₁.shadow.frame.reserved = id :: rest)
    (wraps : m₁.shadow.frame.callType.skipsWrapping = false) :
    m.ComesBack (wrap levels r m₁).2 v (wrap levels r m₁).1 where
  shadow known raw found := by
    have grows' := (stacks_wrap levels r m₁).toGrows
    obtain ⟨rfl, rfl | rfl⟩ := out.shadow known raw found
    · have same : (wrap levels r m₁).1 = r := by
        refine wrap_of_not_bare levels ?_ m₁
        cases r with
        | literal l => cases found
        | object o => rfl
        | shadow handle identity l => rfl
      rw [same]
      exact ⟨grows'.lookup? (grows.lookup? found), .inl rfl⟩
    · obtain ⟨handle, eq, known⟩ := wrap_literal levels reserved wraps raw
      rw [eq]
      exact ⟨known, .inr ⟨handle, rfl⟩⟩
  object o object := by
    rw [out.object o object]
    subst object
    rfl

end Containers

end MemoryM

end ShadowTaint
