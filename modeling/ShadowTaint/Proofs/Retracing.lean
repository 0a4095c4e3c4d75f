import ShadowTaint.Proofs.NewArrays
import ShadowTaint.Proofs.Transparency
import ShadowTaint.Proofs.Walks
/-!
# Walking back along trees

The shadows that were taken off everything below an object are put back along the trees that were found.
The trees name the properties in the order in which the walk came to them, and each object has its tree
where the walk entered it first. An object is wrapped before its own trees are worked off. That settles
what it holds as a container: an array that is tracked element by element gives new identities to the
literals in it, and their trees come too late. So everything below an object comes back as it was, except
for the identities of the elements of such arrays. The object at the root is not wrapped on the way, so
its own elements come back under their identities.

## Main definitions

- `Memory.Charts`: the trees of a walk, as a description of the memory in which the walk began.
- `Memory.Regains`: a property has what it had then, with a shadow for a literal.
- `Levels.Renews`: the object is such an array.
- `Memory.Poised`: where walking back stands when it has come to some of the keys of an object.

## Main statements

- `MemoryM.Sweeps.charts`: a walk finds what there was when it began.
- `Memory.Charts.retraced`: what walking back along trees does.
- `MemoryM.wrapTrees_regains`: what becomes of everything below an object when its shadows are taken off
  and put back.
- `Session.nestedArray_loses`: an element of an array in an object loses its taint that way.

## Design notes

A name may be kept twice in a table that was not built by storing. So keys may come twice, and about the
identity in a later tree nothing is known; it is not used, since the property has its shadow by then.
-/

namespace ShadowTaint

open Memory Tracker MemoryM

namespace Heap

variable {h h' : Heap} {id x : ObjectId} {key : String}

/-- No array is longer than the indices that can be read, so each element is found under its key. -/
def Addressable (h : Heap) : Prop :=
  ∀ x elements, (h.get x).kind = .array elements → elements.length ≤ Nat.pow 2 64

theorem Addressable.hasOwnKey (short : h.Addressable) (own : key ∈ h.ownKeys x) :
    h.hasOwnKey x key = true := by
  rw [hasOwnKey_eq]
  rcases own_cases own with ⟨elements, i, kind, inside, rfl⟩ | ⟨other, known⟩
  · rw [outline_of_array kind]
    dsimp only
    rw [Text.readIndex?_toString (Nat.lt_of_lt_of_le inside (short x elements kind)), Option.any_some]
    exact decide_eq_true inside
  · rw [outline_of_not_array other]
    exact decide_eq_true (Table.isSome_find_iff.mp known)

end Heap

namespace Memory

variable {m₀ m m' : Memory} {id x y : ObjectId} {key : String} {keys before : List String}
  {visited visited' : List ObjectId} {trees : List TaintTree}

/-- Trees that a walk over own keys of an object has found, read off the memory in which it began. About
identities of keys that were gone over before nothing is said, since these had lost their shadows. -/
inductive Charts (m : Memory) : ObjectId → List String → List String → List ObjectId → List TaintTree →
    List ObjectId → Prop where
  | done (id : ObjectId) (before : List String) (visited : List ObjectId) :
      Charts m id before [] visited [] visited
  | value {id : ObjectId} {before keys : List String} {key : String} {identity : Identity}
      {visited visited' : List ObjectId} {trees : List TaintTree} (own : key ∈ m.heap.ownKeys id)
      (value : (m.heap.getProperty id key).object? = none)
      (reads : key ∉ before → m.Reads (m.heap.getProperty id key) identity)
      (rest : Charts m id (key :: before) keys visited trees visited') :
      Charts m id before (key :: keys) visited (⟨key, identity, []⟩ :: trees) visited'
  | seen {id child : ObjectId} {before keys : List String} {key : String}
      {visited visited' : List ObjectId} {trees : List TaintTree} (own : key ∈ m.heap.ownKeys id)
      (holds : m.heap.getProperty id key = .object child)
      (rest : Charts m id (key :: before) keys visited trees visited') :
      Charts m id before (key :: keys) visited trees visited'
  | child {id child : ObjectId} {before keys : List String} {key : String} {identity : Identity}
      {visited visited₁ visited' : List ObjectId} {children trees : List TaintTree}
      (own : key ∈ m.heap.ownKeys id) (holds : m.heap.getProperty id key = .object child)
      (fresh : child ∉ visited)
      (inside : Charts m child [] (m.heap.ownKeys child) (child :: visited) children visited₁)
      (rest : Charts m id (key :: before) keys visited₁ trees visited') :
      Charts m id before (key :: keys) visited (⟨key, identity, children⟩ :: trees) visited'

theorem Charts.remembers (charts : m.Charts id before keys visited trees visited') : visited ⊆ visited' := by
  induction charts with
  | done => exact List.Subset.refl _
  | value _ _ _ _ ih => exact ih
  | seen _ _ _ ih => exact ih
  | child _ _ _ _ _ inside rest => exact fun x here => rest (inside (List.mem_cons_of_mem _ here))

theorem Unveils.object?_eq (unveils : m.Unveils m') (x : ObjectId) (key : String) :
    (m'.heap.getProperty x key).object? = (m.heap.getProperty x key).object? := by
  rw [← objectOf?_eq m', ← objectOf?_eq m, objectOf?, objectOf?, unveils.stands]

end Memory

namespace MemoryM

variable {m₀ m m' : Memory} {id x y : ObjectId} {key : String} {keys before : List String}
  {visited visited' : List ObjectId} {trees : List TaintTree}

/-- What a walk finds is what there was at first: it comes to the keys of an object before anything has
changed there but under keys that it went over before. -/
theorem Sweeps.charts (sweeps : Sweeps id keys visited m trees visited' m') (unveils : m₀.Unveils m)
    (entered : id ∈ visited) (before : List String)
    (untouched : ∀ x, x ∉ visited → m.heap.get x = m₀.heap.get x)
    (pending : ∀ key ∈ m₀.heap.ownKeys id, key ∉ before →
      m.heap.getProperty id key = m₀.heap.getProperty id key) :
    m₀.Charts id before keys visited trees visited' := by
  -- on the walk, with what it has not come to yet as an invariant
  induction sweeps generalizing before with
  | done => exact .done _ _ _
  | @value id key keys visited visited' m _ trees v own holds value _ ih =>
    have first := unveils_stripProperty own holds []
    show m₀.Charts id before (key :: keys) visited (⟨key, (identityOf v m).1, []⟩ :: trees) visited'
    refine .value (unveils.shaped.ownKeys id ▸ own) ?_ (fun new => ?_)
      (ih (trans_of Unveils unveils first) entered _ (fun x outside => ?_) fun name own' new => ?_)
    · rw [← unveils.object?_eq, holds, value]
    · rw [← pending key (unveils.shaped.ownKeys id ▸ own) new, holds]
      exact (reads_identityOf v m).mono unveils.wraps unveils.minted
    · have apart : x ≠ id := fun same => outside (same ▸ entered)
      rw [heap_stripProperty, Heap.get_setProperty_of_ne apart, untouched x outside]
    · rw [List.mem_cons, not_or] at new
      rw [heap_stripProperty, Heap.getProperty_setProperty_own own
        ((unveils.shaped.ownKeys id).symm ▸ own'), if_neg new.1, pending name own' new.2]
  | seen own holds _ _ ih =>
    refine .seen (unveils.shaped.ownKeys _ ▸ own) (unveils.holds_iff.mp holds)
      (ih unveils entered _ untouched fun name own' new => ?_)
    exact pending name own' fun mem => new (List.mem_cons_of_mem _ mem)
  | @child id child key keys visited visited₁ visited' m m₁ _ children trees own holds fresh inside _
      below later =>
    have own₁ : key ∈ m₁.heap.ownKeys id := (inside.unveils.shaped.ownKeys id).symm ▸ own
    have into := inside.remembers.1
    have apart : id ≠ child := fun same => fresh (same ▸ entered)
    -- below the child nothing has happened yet, and afterwards nothing has happened but there
    have below := below unveils List.mem_cons_self [] (fun x outside =>
      untouched x fun here => outside (List.mem_cons_of_mem _ here)) fun name _ _ => by
        rw [Heap.getProperty, untouched child fresh, ← Heap.getProperty]
    rw [unveils.shaped.ownKeys] at below
    refine .child (unveils.shaped.ownKeys id ▸ own) (unveils.holds_iff.mp holds) fresh below
      (later (trans_of Unveils unveils (unveils_stripChild own holds inside.unveils children))
        (into (List.mem_cons_of_mem _ entered)) _ (fun x outside => ?_) fun name own' new => ?_)
    · have ne (other : ObjectId) (here : other ∈ visited₁) : x ≠ other := fun same => outside (same ▸ here)
      rw [heap_stripProperty, Heap.get_setProperty_of_ne (ne id (into (List.mem_cons_of_mem _ entered))),
        inside.away (ne child (into List.mem_cons_self)) (.inr outside),
        untouched x fun here => outside (into (List.mem_cons_of_mem _ here))]
    · rw [List.mem_cons, not_or] at new
      have same := inside.away apart (.inl (List.mem_cons_of_mem _ entered))
      rw [heap_stripProperty, Heap.getProperty_setProperty_own own₁
        (((unveils.shaped.trans inside.unveils.shaped).ownKeys id).symm ▸ own'), if_neg new.1,
        Heap.getProperty, same, ← Heap.getProperty, pending name own' new.2]

end MemoryM

namespace Heap

variable {h : Heap} {id : ObjectId} {c : Container} {values ws : List Value}

/-- A container keeps its keys when its values are replaced one by one. -/
theorem shaped_setHeld (held : h.held? c id = some values) (length : ws.length = values.length) :
    h.Shaped (h.setHeld id ws) where
  size := size_modify h id _
  outline x := by
    unfold outline
    by_cases here : x = id
    · subst here
      rw [get_setHeld_self]
      rw [held?] at held
      cases kind : (h.get x).kind with
      | array elements =>
        rw [kind] at held
        cases c <;> cases held
        simp only [ObjectKind.withHeld, length]
      | _ => rfl
    · rw [setHeld, get_modify_ne h here]

/-- Named properties are not among the values that a container holds. -/
theorem getProperty_setHeld_of_keyed (keyed : c ≠ .array) (held : h.held? c id = some values)
    (x : ObjectId) (name : String) : (h.setHeld id ws).getProperty x name = h.getProperty x name := by
  rw [getProperty, getProperty]
  by_cases here : x = id
  · subst here
    rw [get_setHeld_self]
    rw [held?] at held
    cases kind : (h.get x).kind <;> rw [kind] at held <;> cases c <;> cases held
    · exact absurd rfl keyed
    · unfold HeapObject.property
      rw [kind]
      rfl
    · unfold HeapObject.property
      rw [kind]
      rfl
  · rw [setHeld, get_modify_ne h here]

theorem Shaped.isSome_held {h' : Heap} (shaped : h.Shaped h') (x : ObjectId) :
    (h'.held? .array x).isSome = (h.held? .array x).isSome := by
  have elements (h : Heap) : (h.held? .array x).isSome = (h.outline x).1.isSome := by
    unfold held? Heap.outline
    cases (h.get x).kind <;> rfl
  rw [elements, elements, shaped.outline]

end Heap

namespace Memory

variable {m m' m'' : Memory} {levels : Levels} {root id x y : ObjectId} {key : String} {v : Value}

/-- The heap has the same objects with the same keys, and their policies are the same. -/
structure Predates (m m' : Memory) : Prop where
  shaped : m.heap.Shaped m'.heap
  evolves : m.heap.Evolves m'.heap
  tags : m.SameTags m'
  minted : m.shadow.nextIdentity ≤ m'.shadow.nextIdentity

/-- Moreover handles that are known stay known, and the frame is the same. -/
structure Upholds (m m' : Memory) : Prop extends Predates m m' where
  known : ∀ (i : Nat) x, m.shadow.wraps[i]? = some x → m'.shadow.wraps[i]? = some x
  frame : m'.shadow.frame = m.shadow.frame

theorem Predates.trans (first : m.Predates m') (second : m'.Predates m'') : m.Predates m'' where
  shaped := first.shaped.trans second.shaped
  evolves := first.evolves.trans second.evolves
  tags := trans_of SameTags first.tags second.tags
  minted := Nat.le_trans first.minted second.minted

instance : IsPreorder Memory Upholds where
  refl m := ⟨⟨.refl _, .refl _, refl_of SameTags m, Nat.le_refl _⟩, fun _ _ h => h, rfl⟩
  trans _ _ _ first second := ⟨first.toPredates.trans second.toPredates,
    fun i x h => second.known i x (first.known i x h), second.frame.trans first.frame⟩

theorem Predates.policy_iff (before : m.Predates m') {c : Container} {grain : Grain} :
    levels.policyFor m'.heap (.object x) = .container c grain ↔
      levels.policyFor m.heap (.object x) = .container c grain := by
  constructor <;> intro policy
  · have allocated := levels.allocated_of_policyFor policy
    rwa [levels.policyFor_of_tags before.evolves before.tags (before.shaped.size ▸ allocated)] at policy
  · rwa [levels.policyFor_of_tags before.evolves before.tags (levels.allocated_of_policyFor policy)]

theorem upholds_setProperty (own : key ∈ m.heap.ownKeys id) (v : Value) :
    m.Upholds { m with heap := m.heap.setProperty id key v } where
  shaped := Heap.shaped_setProperty own v
  evolves := m.heap.evolves_setProperty id key v
  tags := m.heap.importTag?_setProperty id key v
  minted := Nat.le_refl _
  known _ _ h := h
  frame := rfl

theorem shaped_wrap (levels : Levels) (v : Value) (m : Memory) :
    m.heap.Shaped (wrap levels v m).2.heap := by
  rcases heap_wrap_cases levels v m with ⟨c, grain, id, values, -, -, held, heap⟩ | ⟨same, -⟩
  · rw [heap]
    exact Heap.shaped_setHeld held (keeps_mapM_hold grain values m).length_eq.symm
  · rw [same]
    exact .refl _

/-- A value is wrapped under an identity that is reserved just before. -/
theorem upholds_wrap (levels : Levels) (v : Value) (identity : Identity) (m : Memory) :
    m.Upholds (wrap levels v { m with shadow := m.shadow.push identity }).2 := by
  have stacked := stacks_wrap levels v { m with shadow := m.shadow.push identity }
  exact {
    shaped := shaped_wrap levels v { m with shadow := m.shadow.push identity }
    evolves := stacked.evolves
    tags := (admitsWrapping_sameTags levels).wrap v { m with shadow := m.shadow.push identity }
    minted := stacked.minted
    known := stacked.known
    frame := stacked.frame }

end Memory

/-- Wrapping the object gives new identities to what it holds: it is an array below the root that is
tracked element by element. -/
def Levels.Renews (levels : Levels) (h : Heap) (root x : ObjectId) : Prop :=
  x ≠ root ∧ (h.held? .array x).isSome = true ∧
    levels.policyFor h (.object x) = .container .array .precise

namespace Memory

variable {m₀ m m' m'' : Memory} {levels : Levels} {root id x y : ObjectId} {key : String}

/-- A property has what it had in an earlier memory: an object is the same, and for a literal there is a
shadow again. Its identity is the one that was found for it then, or a new one where wrapping gives
those. -/
structure Regains (levels : Levels) (root : ObjectId) (m₀ : Memory) (x : ObjectId) (key : String)
    (m : Memory) : Prop where
  object : ∀ y, m₀.heap.getProperty x key = .object y → m.heap.getProperty x key = .object y
  shadow : ∀ raw, m₀.valueOf (m₀.heap.getProperty x key) = .literal raw → ∃ handle own,
    m.heap.getProperty x key = .shadow handle own raw ∧
    m.shadow.lookup? (.shadow handle own raw) = some (own, raw) ∧
    (levels.Renews m₀.heap root x → m₀.shadow.nextIdentity ≤ own.index) ∧
    (¬ levels.Renews m₀.heap root x → m₀.Reads (m₀.heap.getProperty x key) own)

/-- A property holds what its shadow stood for in an earlier memory. -/
def HoldsRaw (m₀ : Memory) (x : ObjectId) (key : String) (m : Memory) : Prop :=
  m.heap.getProperty x key = m₀.valueOf (m₀.heap.getProperty x key)

/-- A property of an object that was wrapped, when its tree has not been come to. -/
structure Awaiting (levels : Levels) (root : ObjectId) (m₀ : Memory) (x : ObjectId) (key : String)
    (m : Memory) : Prop where
  renewed : levels.Renews m₀.heap root x → Regains levels root m₀ x key m
  stripped : ¬ levels.Renews m₀.heap root x → HoldsRaw m₀ x key m

/-- The properties of an object are the same under its own keys. -/
def SameAt (h : Heap) (x : ObjectId) (m m' : Memory) : Prop :=
  ∀ key ∈ h.ownKeys x, m'.heap.getProperty x key = m.heap.getProperty x key

theorem SameAt.trans {h : Heap} (first : SameAt h x m m') (second : SameAt h x m' m'') :
    SameAt h x m m'' :=
  fun key own => (second key own).trans (first key own)

/-- To store what is there changes nothing. -/
theorem sameAt_setProperty {v : Value} (shaped : m₀.heap.Shaped m.heap) (own : key ∈ m₀.heap.ownKeys id)
    (holds : m.heap.getProperty id key = v) (x : ObjectId) :
    SameAt m₀.heap x m { m with heap := m.heap.setProperty id key v } := by
  intro name mem
  by_cases here : x = id
  · subst here
    rw [Heap.getProperty_setProperty_own ((shaped.ownKeys x).symm ▸ own)
      ((shaped.ownKeys x).symm ▸ mem)]
    by_cases same : name = key
    · rw [if_pos same, same, holds]
    · rw [if_neg same]
  · exact Heap.getProperty_setProperty_of_ne here key v name

theorem lookup?_of_known (known : ∀ (i : Nat) x, m.shadow.wraps[i]? = some x → m'.shadow.wraps[i]? = some x)
    {v : Value} {found : Identity × Literal} (lookup : m.shadow.lookup? v = some found) :
    m'.shadow.lookup? v = some found := by
  cases v with
  | shadow handle identity raw => exact known _ _ lookup
  | literal l => cases lookup
  | object o => cases lookup

theorem Regains.mono (regains : Regains levels root m₀ x key m) (upholds : m.Upholds m')
    (same : m'.heap.getProperty x key = m.heap.getProperty x key) :
    Regains levels root m₀ x key m' where
  object y holds := same.trans (regains.object y holds)
  shadow raw value := by
    obtain ⟨handle, own, holds, lookup, identity⟩ := regains.shadow raw value
    exact ⟨handle, own, same.trans holds, lookup?_of_known upholds.known lookup, identity⟩

theorem Awaiting.mono (awaiting : Awaiting levels root m₀ x key m) (upholds : m.Upholds m')
    (same : m'.heap.getProperty x key = m.heap.getProperty x key) :
    Awaiting levels root m₀ x key m' where
  renewed renews := (awaiting.renewed renews).mono upholds same
  stripped not := same.trans (awaiting.stripped not)

/-- A property that holds an object has it also before its tree is come to. -/
theorem Awaiting.holds (awaiting : Awaiting levels root m₀ x key m)
    (object : m₀.heap.getProperty x key = .object y) : m.heap.getProperty x key = .object y := by
  by_cases renews : levels.Renews m₀.heap root x
  · exact (awaiting.renewed renews).object y object
  · rw [awaiting.stripped renews, object]
    rfl

theorem regains_of_object (object : m₀.heap.getProperty x key = .object y)
    (holds : m.heap.getProperty x key = .object y) : Regains levels root m₀ x key m where
  object y' object' := by
    rw [object] at object'
    cases object'
    exact holds
  shadow raw value := by
    rw [object] at value
    cases value

end Memory

namespace MemoryM

variable {m₀ m : Memory} {levels : Levels} {root id x : ObjectId} {key : String}

/-- What becomes of a bare value in an array that is tracked element by element. -/
def Renewed (n : Nat) (m : Memory) (v w : Value) : Prop :=
  (∀ y, v = .object y → w = .object y) ∧ ∀ raw, v = .literal raw → ∃ handle own,
    w = .shadow handle own raw ∧ m.shadow.lookup? (.shadow handle own raw) = some (own, raw) ∧ n ≤ own.index

theorem renewed_mapM_hold {n : Nat} (values : List Value) {m : Memory}
    (wraps : m.shadow.frame.callType.skipsWrapping = false) (minted : n ≤ m.shadow.nextIdentity) :
    List.Forall₂ (Renewed n (values.mapM (hold .precise) m).2) values (values.mapM (hold .precise) m).1 := by
  induction values generalizing m with
  | nil => exact .nil
  | cons v rest ih =>
    have spreads := spreads_hold .precise v m
    have later := Within.mapM (spreads_hold .precise) rest (hold .precise v m).2
    rw [List.mapM_cons]
    refine .cons ⟨?_, ?_⟩ (ih (m := (hold .precise v m).2) (by rw [spreads.frame, wraps])
      (Nat.le_trans minted spreads.minted))
    · rintro y rfl
      rfl
    · rintro raw rfl
      obtain ⟨handle, wrapped, lookup⟩ := lookup_shadow m.shadow.mint.1 raw
        (m := { m with shadow := m.shadow.mint.2 }) wraps
      exact ⟨handle, m.shadow.mint.1, wrapped, lookup?_of_known later.known lookup, minted⟩

section Wrapping

variable (short : m₀.heap.Addressable) (predates : m₀.Predates m)
  (wraps : m.shadow.frame.callType.skipsWrapping = false)
include short predates wraps

/-- An object below the root is wrapped when it holds no shadow. -/
theorem awaiting_wrap (below : x ≠ root) (raws : ∀ key ∈ m₀.heap.ownKeys x, HoldsRaw m₀ x key m) :
    ∀ key ∈ m₀.heap.ownKeys x, Awaiting levels root m₀ x key (wrap levels (.object x) m).2 := by
  intro key own
  have own' : m.heap.hasOwnKey x key = true := (predates.shaped.hasOwnKey x key).trans (short.hasOwnKey own)
  have after : (wrap levels (.object x) m).2.heap.hasOwnKey x key = true :=
    ((shaped_wrap levels (.object x) m).hasOwnKey x key).trans own'
  -- an element is read in its place before and afterwards
  have element {values ws : List Value} (held : m.heap.held? .array x = some values)
      (held' : (wrap levels (.object x) m).2.heap.held? .array x = some ws) :
      ∃ i, ∃ inside : i < values.length, ∃ inside' : i < ws.length,
        values.get ⟨i, inside⟩ = m₀.valueOf (m₀.heap.getProperty x key) ∧
        (wrap levels (.object x) m).2.heap.getProperty x key = ws.get ⟨i, inside'⟩ := by
    obtain ⟨i, inside, index, before⟩ := Heap.index_of_hasOwnKey held own'
    obtain ⟨j, inside', index', later⟩ := Heap.index_of_hasOwnKey held' after
    rw [index] at index'
    cases index'
    exact ⟨i, inside, inside', before.symm.trans (raws key own), later⟩
  refine ⟨fun ⟨_, array, policy⟩ => ?_, fun not => ?_⟩
  · have policy' := predates.policy_iff.mpr policy
    obtain ⟨values, held⟩ := Option.isSome_iff_exists.mp ((predates.shaped.isSome_held x).trans array)
    have pairs := renewed_mapM_hold values wraps predates.minted
    have handles := sameHandles_wrap_of_held policy' held
    have held' : (wrap levels (.object x) m).2.heap.held? .array x =
        some (values.mapM (hold .precise) m).1 := by
      rw [heap_wrap_of_held policy' held]
      exact Heap.held?_setHeld held pairs.length_eq.symm
    obtain ⟨i, inside, inside', before, later⟩ := element held held'
    obtain ⟨object, shadow⟩ := pairs.get inside inside'
    rw [before] at object shadow
    refine ⟨fun y holds => ?_, fun raw value => ?_⟩
    · rw [later]
      exact object y (by rw [holds]; rfl)
    · obtain ⟨handle, own, renewed, lookup, new⟩ := shadow raw value
      refine ⟨handle, own, later.trans renewed, ?_, fun _ => new,
        fun not => absurd ⟨below, array, policy⟩ not⟩
      rw [lookup?_of_wraps handles]
      exact lookup
  · rcases heap_wrap_cases levels (.object x) m with
      ⟨c, grain, id, values, object, policy, held, heap⟩ | ⟨same, -⟩
    · cases object
      by_cases keyed : c = .array
      · subst keyed
        cases grain with
        | precise =>
          refine absurd ⟨below, ?_, predates.policy_iff.mp policy⟩ not
          rw [← predates.shaped.isSome_held, held]
          rfl
        | imprecise =>
          obtain ⟨i, inside, inside', before, later⟩ := element held (held?_wrap_imprecise policy held)
          have mapped : (values.map m.valueOf).get ⟨i, inside'⟩ = m.valueOf (values.get ⟨i, inside⟩) :=
            List.getElem_map _
          rw [HoldsRaw, later, mapped, before]
          exact valueOf_valueOf m₀ m _
      · rw [HoldsRaw, heap, Heap.getProperty_setHeld_of_keyed keyed held]
        exact raws key own
    · rw [HoldsRaw, same]
      exact raws key own

end Wrapping

/-- A tree for a property that holds no object. A literal is wrapped under the identity in the tree, and a
shadow stays what it is. -/
theorem wrapTree_of_value (levels : Levels) (identity : Identity) (children : List TaintTree)
    (has : m.heap.hasOwnKey id key = true)
    (value : (m.heap.getProperty id key).object? = none)
    (wraps : m.shadow.frame.callType.skipsWrapping = false) :
    ∃ w m', (wrapTree levels id ⟨key, identity, children⟩ m).2 =
        { m' with heap := m.heap.setProperty id key w } ∧ m'.heap = m.heap ∧ m.Upholds m' ∧
      (∀ raw, m.heap.getProperty id key = .literal raw → ∃ handle, w = .shadow handle identity raw ∧
        m'.shadow.lookup? (.shadow handle identity raw) = some (identity, raw)) ∧
      ((m.heap.getProperty id key).isBareLiteral = false → w = m.heap.getProperty id key) := by
  have upholds := upholds_wrap levels (m.heap.getProperty id key) identity m
  have bare := wrap_literal levels (m := { m with shadow := m.shadow.push identity }) rfl wraps
  have kept := wrap_of_not_bare levels (v := m.heap.getProperty id key)
  rcases run : wrap levels (m.heap.getProperty id key) { m with shadow := m.shadow.push identity } with
    ⟨w, m'⟩
  rw [run] at upholds
  have object : w.object? = none := by
    rcases made : w.object? with _ | child
    · rfl
    · rw [eq_object_of_wrap levels ((congrArg (·.1.object?) run).trans made)] at value
      cases value
  have heap : m'.heap = m.heap := by
    rcases heap_wrap_cases levels (m.heap.getProperty id key)
      { m with shadow := m.shadow.push identity } with ⟨_, _, _, _, holds, -⟩ | ⟨same, -⟩
    · rw [holds] at value
      cases value
    · rwa [run] at same
  refine ⟨w, m', (wrapTree_of_literal has run object).trans (by rw [heap]), heap, upholds,
    fun raw holds => ?_, fun dressed => ?_⟩
  · rw [holds] at run
    have made := bare raw
    rwa [run] at made
  · have same := kept dressed { m with shadow := m.shadow.push identity }
    rwa [run] at same

/-- A property that has its shadow again keeps it, and one that has been waiting gets it under the identity
that was found for it. No other own key of any object is touched. -/
theorem regains_wrapTree (short : m₀.heap.Addressable) (predates : m₀.Predates m)
    (wraps : m.shadow.frame.callType.skipsWrapping = false) (own : key ∈ m₀.heap.ownKeys id)
    (value : (m₀.heap.getProperty id key).object? = none) (identity : Identity) (children : List TaintTree)
    (here : Regains levels root m₀ id key m ∨ Awaiting levels root m₀ id key m ∧
      m₀.Reads (m₀.heap.getProperty id key) identity) :
    m.Upholds (wrapTree levels id ⟨key, identity, children⟩ m).2 ∧
      Regains levels root m₀ id key (wrapTree levels id ⟨key, identity, children⟩ m).2 ∧
      ∀ x, ∀ name ∈ m₀.heap.ownKeys x, (x ≠ id ∨ name ≠ key) →
        (wrapTree levels id ⟨key, identity, children⟩ m).2.heap.getProperty x name =
          m.heap.getProperty x name := by
  obtain ⟨raw, bare⟩ : ∃ raw, m₀.valueOf (m₀.heap.getProperty id key) = .literal raw :=
    m₀.shadow.exists_valueOf_of_plain value
  -- either the shadow is there, or the bare literal is, which is not renewed
  have now : Regains levels root m₀ id key m ∨ ¬ levels.Renews m₀.heap root id ∧
      m.heap.getProperty id key = .literal raw ∧ m₀.Reads (m₀.heap.getProperty id key) identity := by
    refine here.elim .inl fun ⟨awaiting, reads⟩ => ?_
    by_cases renews : levels.Renews m₀.heap root id
    · exact .inl (awaiting.renewed renews)
    · exact .inr ⟨renews, (awaiting.stripped renews).trans bare, reads⟩
  have value' : (m.heap.getProperty id key).object? = none := by
    rcases now with regains | ⟨-, holds, -⟩
    · obtain ⟨handle, own, holds, -⟩ := regains.shadow raw bare
      rw [holds]
      rfl
    · rw [holds]
      rfl
  have has : m.heap.hasOwnKey id key = true := (predates.shaped.hasOwnKey id key).trans (short.hasOwnKey own)
  have own' : key ∈ m.heap.ownKeys id := (predates.shaped.ownKeys id).symm ▸ own
  obtain ⟨w, m₁, run, heap, upholds, wrapped, kept⟩ :=
    wrapTree_of_value levels identity children has value' wraps
  have stored := upholds_setProperty (heap.symm ▸ own') w
  rw [heap] at stored
  have after : ({ m₁ with heap := m.heap.setProperty id key w } : Memory).heap.getProperty id key = w := by
    rw [Heap.getProperty_setProperty_own own' own', if_pos rfl]
  rw [run]
  refine ⟨trans_of Upholds upholds stored, ?_, fun x name other apart => ?_⟩
  · rcases now with regains | ⟨renews, holds, reads⟩
    · refine regains.mono (trans_of Upholds upholds stored) (after.trans (kept ?_))
      obtain ⟨handle, own, holds, -⟩ := regains.shadow raw bare
      rw [holds]
      rfl
    · obtain ⟨handle, rfl, lookup⟩ := wrapped raw holds
      refine ⟨fun y object => ?_, fun raw' bare' => ?_⟩
      · rw [object] at value
        cases value
      · rw [bare] at bare'
        cases bare'
        exact ⟨handle, identity, after, lookup, fun yes => absurd yes renews, fun _ => reads⟩
  · by_cases same : x = id
    · subst same
      rw [Heap.getProperty_setProperty_own own' ((predates.shaped.ownKeys x).symm ▸ other),
        if_neg (apart.resolve_left fun other => other rfl)]
    · rw [Heap.getProperty_setProperty_of_ne same]

end MemoryM

namespace Memory

variable {m₀ m m₁ m' : Memory} {levels : Levels} {root id : ObjectId} {key : String}
  {before keys : List String} {visited visited₁ visited' : List ObjectId} {trees : List TaintTree}

/-- Where walking back stands that has come to some keys of an object before: these have their shadows
again, the other keys of the object have been waiting since it was wrapped, and objects that are still to
be entered hold no shadows. -/
structure Poised (levels : Levels) (root : ObjectId) (m₀ : Memory) (id : ObjectId) (before : List String)
    (visited visited' : List ObjectId) (m : Memory) : Prop where
  predates : m₀.Predates m
  wraps : m.shadow.frame.callType.skipsWrapping = false
  entered : id ∈ visited
  start : root ∈ visited
  gone : ∀ key ∈ before, key ∈ m₀.heap.ownKeys id ∧ Regains levels root m₀ id key m
  ahead : ∀ key ∈ m₀.heap.ownKeys id, key ∉ before → Awaiting levels root m₀ id key m
  outside : ∀ x ∈ visited', x ∉ visited → ∀ key ∈ m₀.heap.ownKeys x, HoldsRaw m₀ x key m

/-- What walking back has done, from an object on: it has given shadows to some of its keys and to all own
keys of the objects that it entered. -/
structure Retraced (levels : Levels) (root : ObjectId) (m₀ : Memory) (id : ObjectId) (keys : List String)
    (visited visited' : List ObjectId) (m m' : Memory) : Prop where
  upholds : m.Upholds m'
  away : ∀ x, x ≠ id → x ∈ visited ∨ x ∉ visited' → SameAt m₀.heap x m m'
  here : ∀ key ∈ keys, Regains levels root m₀ id key m'
  below : ∀ x ∈ visited', x ∉ visited → ∀ key ∈ m₀.heap.ownKeys x, Regains levels root m₀ x key m'

/-- One more key of the object was come to. -/
theorem Poised.next (poised : Poised levels root m₀ id before visited visited' m)
    (own : key ∈ m₀.heap.ownKeys id) (first : Retraced levels root m₀ id [key] visited visited₁ m m₁)
    (others : ∀ name ∈ m₀.heap.ownKeys id, name ≠ key →
      m₁.heap.getProperty id name = m.heap.getProperty id name) (into : visited ⊆ visited₁) :
    Poised levels root m₀ id (key :: before) visited₁ visited' m₁ where
  predates := poised.predates.trans first.upholds.toPredates
  wraps := by rw [first.upholds.frame, poised.wraps]
  entered := into poised.entered
  start := into poised.start
  gone name here := by
    by_cases same : name = key
    · subst same
      exact ⟨own, first.here name List.mem_cons_self⟩
    · obtain ⟨own', regains⟩ := poised.gone name ((List.mem_cons.mp here).resolve_left same)
      exact ⟨own', regains.mono first.upholds (others name own' same)⟩
  ahead name own' new := by
    rw [List.mem_cons, not_or] at new
    exact (poised.ahead name own' new.2).mono first.upholds (others name own' new.1)
  outside x here new name own' := by
    have apart : x ≠ id := fun same => new (into (same ▸ poised.entered))
    rw [HoldsRaw, first.away x apart (.inr new) name own']
    exact poised.outside x here (fun early => new (into early)) name own'

theorem Retraced.trans {names : List String} (first : Retraced levels root m₀ id names visited visited₁ m m₁)
    (rest : Retraced levels root m₀ id keys visited₁ visited' m₁ m') (entered : id ∈ visited)
    (into : visited ⊆ visited₁) (more : visited₁ ⊆ visited') :
    Retraced levels root m₀ id keys visited visited' m m' where
  upholds := trans_of Upholds first.upholds rest.upholds
  away x apart left := by
    refine (first.away x apart (left.imp_right fun out here => out (more here))).trans ?_
    exact rest.away x apart (left.imp_left fun here => into here)
  here := rest.here
  below x here new name own := by
    by_cases early : x ∈ visited₁
    · have apart : x ≠ id := fun same => new (same ▸ entered)
      exact (first.below x early new name own).mono rest.upholds (rest.away x apart (.inl early) name own)
    · exact rest.below x here early name own

/-- An object that was come to is wrapped, and then walking back goes on below it. -/
theorem Poised.enter {child : ObjectId} (poised : Poised levels root m₀ id before visited visited' m)
    (short : m₀.heap.Addressable) (fresh : child ∉ visited) (into : child ∈ visited')
    (more : visited₁ ⊆ visited') (identity : Identity) :
    Poised levels root m₀ child [] (child :: visited) visited₁
      (wrap levels (.object child) { m with shadow := m.shadow.push identity }).2 where
  predates := poised.predates.trans (upholds_wrap levels (.object child) identity m).toPredates
  wraps := by rw [(upholds_wrap levels (.object child) identity m).frame, poised.wraps]
  entered := List.mem_cons_self
  start := List.mem_cons_of_mem _ poised.start
  gone _ here := nomatch here
  ahead name own _ := by
    have below : child ≠ root := fun same => fresh (same ▸ poised.start)
    have pushed : m₀.Predates { m with shadow := m.shadow.push identity } :=
      ⟨poised.predates.shaped, poised.predates.evolves, poised.predates.tags, poised.predates.minted⟩
    exact awaiting_wrap short pushed poised.wraps below (poised.outside child into fresh) name own
  outside x here new name own := by
    rw [List.mem_cons, not_or] at new
    rw [HoldsRaw, Heap.getProperty, get_wrap_of_ne levels _ new.1]
    exact poised.outside x (more here) new.2 name own

/-- An object that was come to is stored where it was, once everything below it has its shadows again. -/
theorem Poised.leave {child : ObjectId} {children : List TaintTree} (identity : Identity)
    (poised : Poised levels root m₀ id before visited visited' m) (short : m₀.heap.Addressable)
    (own : key ∈ m₀.heap.ownKeys id) (holds : m₀.heap.getProperty id key = .object child)
    (fresh : child ∉ visited) (into : child :: visited ⊆ visited₁)
    (inside : Retraced levels root m₀ child (m₀.heap.ownKeys child) (child :: visited) visited₁
      (wrap levels (.object child) { m with shadow := m.shadow.push identity }).2
      (wrapTrees levels child children
        (wrap levels (.object child) { m with shadow := m.shadow.push identity }).2).2) :
    Retraced levels root m₀ id [key] visited visited₁ m
        (wrapTree levels id ⟨key, identity, children⟩ m).2 ∧
      SameAt m₀.heap id m (wrapTree levels id ⟨key, identity, children⟩ m).2 := by
  have held : m.heap.getProperty id key = .object child := by
    by_cases early : key ∈ before
    · exact (poised.gone key early).2.object child holds
    · exact (poised.ahead key own early).holds holds
  have has : m.heap.hasOwnKey id key = true :=
    (poised.predates.shaped.hasOwnKey id key).trans (short.hasOwnKey own)
  have wrapped := upholds_wrap levels (.object child) identity m
  have apart : id ≠ child := fun same => fresh (same ▸ poised.entered)
  have alone (x : ObjectId) (other : x ≠ child) : SameAt m₀.heap x m
      (wrap levels (.object child) { m with shadow := m.shadow.push identity }).2 := fun name _ => by
    rw [Heap.getProperty, get_wrap_of_ne levels _ other, ← Heap.getProperty]
  rcases run : wrap levels (.object child) { m with shadow := m.shadow.push identity } with ⟨w, m₁⟩
  obtain rfl : w = .object child := by
    have same := wrap_of_not_bare levels (v := .object child) rfl
      { m with shadow := m.shadow.push identity }
    rwa [run] at same
  rw [run] at inside wrapped alone
  rw [← held] at run
  rw [wrapTree_of_object has run (by rw [held]; rfl), held]
  dsimp only at inside
  generalize (wrapTrees levels child children m₁).2 = m₂ at inside
  have at' : SameAt m₀.heap id m m₂ :=
    (alone id apart).trans (inside.away id apart (.inl (List.mem_cons_of_mem _ poised.entered)))
  have before' := trans_of Upholds wrapped inside.upholds
  have shaped := (poised.predates.trans before'.toPredates).shaped
  have stored := upholds_setProperty ((shaped.ownKeys id).symm ▸ own) (.object child)
  -- what is stored was there before
  have last := sameAt_setProperty shaped own ((at' key own).trans held)
  have same : SameAt m₀.heap id m { m₂ with heap := m₂.heap.setProperty id key (.object child) } :=
    at'.trans (last id)
  refine ⟨⟨trans_of Upholds before' stored, fun x _ left => ?_, ?_,
    fun x entered new name mem => ?_⟩, same⟩
  · have outside : x ≠ child := by
      rintro rfl
      exact left.elim fresh fun out => out (into List.mem_cons_self)
    exact ((alone x outside).trans (inside.away x outside (left.imp_left (List.mem_cons_of_mem _)))).trans
      (last x)
  · exact List.forall_mem_singleton.mpr (regains_of_object holds ((same key own).trans held))
  · by_cases here : x = child
    · subst here
      exact (inside.here name mem).mono stored (last x name mem)
    · have below : x ∉ child :: visited := fun mem => (List.mem_cons.mp mem).elim here new
      exact (inside.below x entered below name mem).mono stored (last x name mem)

/-- Walking back along trees. Every object is wrapped when nothing below it has its shadow, and a key is
come to when it has been waiting since then, or was come to before. -/
theorem Charts.retraced (charts : m₀.Charts id before keys visited trees visited')
    (short : m₀.heap.Addressable) (poised : Poised levels root m₀ id before visited visited' m) :
    Retraced levels root m₀ id (before ++ keys) visited visited' m
      (wrapTrees levels id trees m).2 := by
  have shift {id : ObjectId} {key : String} {before keys : List String} {visited visited' : List ObjectId}
      {m m' : Memory} (done : Retraced levels root m₀ id (key :: before ++ keys) visited visited' m m') :
      Retraced levels root m₀ id (before ++ key :: keys) visited visited' m m' :=
    { done with here := fun name here => done.here name (by simpa [or_left_comm] using here) }
  induction charts generalizing m with
  | done =>
    rw [wrapTrees, List.append_nil]
    exact ⟨refl_of Upholds m, fun _ _ _ _ _ => rfl, fun key here => (poised.gone key here).2,
      fun _ here new => absurd here new⟩
  | @value id before keys key identity visited visited' trees own value reads rest ih =>
    rw [wrapTrees, bind_apply]
    have here : Regains levels root m₀ id key m ∨ Awaiting levels root m₀ id key m ∧
        m₀.Reads (m₀.heap.getProperty id key) identity := by
      by_cases early : key ∈ before
      · exact .inl (poised.gone key early).2
      · exact .inr ⟨poised.ahead key own early, reads early⟩
    obtain ⟨upholds, regains, others⟩ :=
      regains_wrapTree short poised.predates poised.wraps own value identity [] here
    have first : Retraced levels root m₀ id [key] visited visited m
        (wrapTree levels id ⟨key, identity, []⟩ m).2 :=
      ⟨upholds, fun x apart _ name own' => others x name own' (.inl apart),
        List.forall_mem_singleton.mpr regains, fun _ here new => absurd here new⟩
    have next := poised.next own first (fun name own' apart => others id name own' (.inr apart))
      (List.Subset.refl _)
    exact shift (first.trans (ih next) poised.entered (List.Subset.refl _) rest.remembers)
  | @seen id child before keys key visited visited' trees own holds _ ih =>
    have held : Regains levels root m₀ id key m := by
      by_cases early : key ∈ before
      · exact (poised.gone key early).2
      · exact regains_of_object holds ((poised.ahead key own early).holds holds)
    have first : Retraced levels root m₀ id [key] visited visited m m :=
      ⟨refl_of Upholds m, fun _ _ _ _ _ => rfl, List.forall_mem_singleton.mpr held,
        fun _ here new => absurd here new⟩
    exact shift (ih (poised.next own first (fun _ _ _ => rfl) (List.Subset.refl _)))
  | @child id child before keys key identity visited visited₁ visited' children trees own holds fresh inside
      rest ihInside ihRest =>
    rw [wrapTrees, bind_apply]
    have into := inside.remembers
    have more := rest.remembers
    have below := ihInside (poised.enter short fresh (more (into List.mem_cons_self)) more identity)
    rw [List.nil_append] at below
    obtain ⟨first, same⟩ := poised.leave identity short own holds fresh into below
    have around : visited ⊆ visited₁ := fun _ here => into (List.mem_cons_of_mem _ here)
    have next := poised.next own first (fun name own' _ => same name own') around
    exact shift (first.trans (ihRest next) poised.entered around more)

end Memory

namespace MemoryM

variable {m m₁ : Memory} {id x : ObjectId} {key : String}

/-- A property that has lost its shadow holds what it stood for. -/
theorem holdsRaw_of_bare (unveils : m.Unveils m₁) (bare : m₁.Bare x key) : HoldsRaw m x key m₁ := by
  rw [HoldsRaw, ← unveils.stands, valueOf_of_bare _ bare]

/-- Shadows below an object are taken off and put back along the trees, with nothing in between. Every
own key of an object that it reaches has what it had: an object is the same, and for a literal, bare or
with a shadow, there is a shadow that stands for it. A shadow that was known comes back under its
identity but for one case: arrays below the object that are tracked element by element. Wrapping such an
array gives new identities to its elements before their trees are come to. The identity of the object
itself is reserved, and nothing else. -/
theorem wrapTrees_regains (levels : Levels) (id : ObjectId) (short : m.heap.Addressable)
    (wraps : m.shadow.frame.callType.skipsWrapping = false) :
    ∃ trees m₁ m₂ identity, unwrapObject (.object id) m = ((.object id, trees), m₁) ∧
      wrapTrees levels id trees m₁ = ((), m₂) ∧
      (∀ x, m.heap.Descends id x → ∀ key ∈ m.heap.ownKeys x, Regains levels id m x key m₂) ∧
      (m.shadow.Bounded → ∀ x, m.heap.Descends id x → ∀ key ∈ m.heap.ownKeys x, ∀ own raw,
        m.shadow.lookup? (m.heap.getProperty x key) = some (own, raw) →
          ((∃ handle, m₂.heap.getProperty x key = .shadow handle own raw) ↔ ¬ levels.Renews m.heap id x)) ∧
      m.Reads (.object id) identity ∧ m₂.shadow.frame.reserved = identity :: m.shadow.frame.reserved := by
  obtain ⟨trees, visited, m₁, run, sweeps, frame⟩ := sweeps_unwrapObject id m
  have unveils := trans_of Unveils sweeps.unveils (unveils_unwrap (.object id) m₁)
  have charts := sweeps.charts (refl_of Unveils m) (List.mem_singleton_self id) [] (fun _ _ => rfl)
    fun _ _ _ => rfl
  obtain ⟨_, -, stacked⟩ := stacks_unwrapObject (.object id) m
  have tags := admitsStripping_sameTags.unwrapObject (.object id) m
  rw [run] at stacked tags
  have last := unveils_unwrap (.object id) m₁
  have poised : Poised levels id m id [] [id] visited (unwrap (.object id) m₁).2 :=
    { predates := ⟨unveils.shaped, stacked.evolves, tags, unveils.minted⟩
      wraps := by rw [stacked.callType, wraps]
      entered := List.mem_singleton_self id
      start := List.mem_singleton_self id
      gone := fun _ here => nomatch here
      ahead := fun key own _ => ⟨fun renews => absurd rfl renews.1,
        fun _ => holdsRaw_of_bare unveils (last.bare (sweeps.bare.1 key own))⟩
      outside := fun x here new key own =>
        holdsRaw_of_bare unveils (last.bare (sweeps.bare.2 x here new key own)) }
  have retraced := charts.retraced short poised
  have regains (x : ObjectId) (reached : m.heap.Descends id x) (key : String) (own : key ∈ m.heap.ownKeys x) :
      Regains levels id m x key (wrapTrees levels id trees (unwrap (.object id) m₁).2).2 := by
    by_cases same : x = id
    · subst same
      exact retraced.here key own
    · exact retraced.below x (sweeps.mem_iff.mpr reached)
        (fun start => same (List.mem_singleton.mp start)) key own
  refine ⟨trees, _, _, _, run, rfl, regains, fun bounded x reached key own known raw lookup => ?_,
    (reads_identityOf (.object id) m₁).mono sweeps.unveils.wraps sweeps.unveils.minted, ?_⟩
  · obtain ⟨handle, other, holds, -, renewed, kept⟩ := (regains x reached key own).shadow raw
      (ShadowState.valueOf_of_lookup lookup)
    refine ⟨fun ⟨handle', same⟩ renews => ?_, fun not => ?_⟩
    · rw [holds] at same
      cases same
      exact absurd (bounded known (ShadowState.mentions_of_lookup lookup)) (Nat.not_lt_of_le (renewed renews))
    · rw [← (kept not).known known raw lookup]
      exact ⟨handle, holds⟩
  · rw [retraced.upholds.frame, reserved_unwrap, frame]

end MemoryM

namespace Session

/-- A plain object with an array under a name, whose only element is a shadow, and a source of taint. -/
def arrayInObject : Heap :=
  ⟨#[{ kind := .plain "Object", properties := .ofList [("k", .object 1)] },
    { kind := .array [.shadow ⟨0⟩ ⟨0⟩ (.string "s")] },
    { kind := .function { name := "__jalangi_set_taint__" } }]⟩

/-- The literal is tainted that the array holds. -/
def taintedInArray : List Event :=
  [.hook (.literal (.string "s")), .host arrayInObject,
    .hook (.callPre
      { f := .object 2, base := .undefined, site := 1
        args := [.shadow ⟨0⟩ ⟨0⟩ (.string "s")] })]

/-- The memory when that is done. -/
def elementTainted (settings : Settings) : Memory :=
  (run (start settings ⟨#[]⟩) taintedInArray).tracker.memory

/-- The shadows below the object are taken off and put back. -/
def takenAndPut (settings : Settings) : Memory :=
  let stripped := unwrapObject (.object 0) (elementTainted settings)
  (wrapTrees settings.policies 0 stripped.1.2 stripped.2).2

/-- The identity of the known shadow that is the element. -/
def elementIdentity? (m : Memory) : Option Identity :=
  (m.shadow.lookup? (m.heap.getProperty 1 "0")).map (·.1)

theorem reachable_elementTainted (settings : Settings) :
    Reachable (run (start settings ⟨#[]⟩) taintedInArray).tracker :=
  reachable_run (.start settings ⟨#[]⟩) taintedInArray

theorem addressable_arrayInObject : arrayInObject.Addressable := by
  rintro (_ | _ | _ | x) elements kind
  · cases kind
  · cases kind
    exact Nat.one_le_two_pow
  · cases kind
  · have missing : arrayInObject.get (x + 3) = default :=
      arrayInObject.get_of_size_le (Nat.le_add_left 3 x)
    rw [missing] at kind
    cases kind

/-- Where arrays are tracked as a whole, the element has its identity again. -/
theorem wrapTrees_regains_whole :
    (elementTainted {}).heap.Addressable ∧
    (elementTainted {}).shadow.frame.callType.skipsWrapping = false ∧
    ∃ trees m₁ m₂, unwrapObject (.object 0) (elementTainted {}) = ((.object 0, trees), m₁) ∧
      wrapTrees {} 0 trees m₁ = ((), m₂) ∧
      ∃ handle, m₂.heap.getProperty 1 "0" = .shadow handle ⟨0⟩ (.string "s") := by
  have wraps : (elementTainted {}).shadow.frame.callType.skipsWrapping = false := by decide +kernel
  have bounded := (reachable_elementTainted {}).bounded
  obtain ⟨trees, m₁, m₂, identity, taken, put, -, comesBack, -⟩ :=
    wrapTrees_regains {} 0 (m := elementTainted {}) addressable_arrayInObject wraps
  have nested : (elementTainted {}).heap.getProperty 0 "k" = .object 1 := rfl
  have inside : (elementTainted {}).heap.Descends 0 1 := .step .self (by decide +kernel) nested
  have whole : ¬ ({} : Levels).Renews (elementTainted {}).heap 0 1 := fun ⟨_, _, precise⟩ =>
    absurd precise (by decide +kernel)
  exact ⟨addressable_arrayInObject, wraps, trees, m₁, m₂, taken, put,
    (comesBack bounded 1 inside "0" (by decide +kernel) ⟨0⟩ (.string "s") rfl).mpr whole⟩

/-- Where they are tracked element by element, it has another one, and its taint is lost. -/
theorem nestedArray_loses :
    Reachable (run (start preciseArrays ⟨#[]⟩) taintedInArray).tracker ∧
    (elementTainted preciseArrays).shadow.frame.callType.skipsWrapping = false ∧
    (elementTainted preciseArrays).heap.Descends 0 1 ∧
    elementIdentity? (elementTainted preciseArrays) = some ⟨0⟩ ∧
    (elementTainted preciseArrays).isTainted ((elementTainted preciseArrays).heap.getProperty 1 "0") = true ∧
    elementIdentity? (takenAndPut preciseArrays) = some ⟨3⟩ ∧
    (takenAndPut preciseArrays).isTainted ((takenAndPut preciseArrays).heap.getProperty 1 "0") = false := by
  have nested : (elementTainted preciseArrays).heap.getProperty 0 "k" = .object 1 := rfl
  exact ⟨reachable_elementTainted preciseArrays, by decide +kernel, .step .self (by decide +kernel) nested,
    by decide +kernel, by decide +kernel, by decide +kernel, by decide +kernel⟩

end Session

end ShadowTaint
