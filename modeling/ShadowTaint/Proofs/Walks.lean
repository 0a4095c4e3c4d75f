import Mathlib.Data.Finset.Card
import Mathlib.Data.Finset.SDiff
import ShadowTaint.Proofs.Looks
/-!
# Walks over any graph of objects

The walk that takes the shadows off an object goes down into whatever the object reaches: named
properties and elements, shared objects and cycles. It stores into the heap while it reads it, and it
stops at objects that it has entered before, also at those that it has not left yet. This file gives the
walk as a relation without any bound on its depth, shows that it always comes to an end, and says what
it leaves behind.

## Main definitions

- `Heap.Descends`: one object is reached from another one along the keys of walks.
- `Memory.Unveils`: some properties have lost their shadows, and nothing else has happened to the heap.
- `MemoryM.Sweeps`: a walk that has come to its end.

## Main statements

- `MemoryM.sweeps_stripProperties`: the walk comes to its end before its depth runs out.
- `MemoryM.unwrapObject_strips`: what is left when the shadows were taken off a value and everything
  below it.

## Design notes

`Heap.Visits` speaks of walks over plain objects, where properties and names are the same thing. Here an
own key of an array may be read in several spellings, so statements about one property are about own
keys.
-/

namespace ShadowTaint

open Memory

/-- The spelling of a number is read as that number. -/
theorem Text.eq_of_readIndex?_toString {i j : Nat} (read : readIndex? (toString j) = some i) : i = j := by
  have wide := readNatural?_of_lt read (show i < i + j + 1 by omega)
  rw [readNatural?_toString (by omega)] at wide
  exact (Option.some.inj wide).symm

namespace Heap

variable {h h' h'' : Heap} {id x y : ObjectId} {key name : String} {v : Value}

/-- The number of elements of an array, or the names that any other object has, in order. -/
def outline (h : Heap) (id : ObjectId) : Option Nat × List String :=
  match (h.get id).kind with
  | .array elements => (some elements.length, [])
  | _ => (none, (h.get id).properties.keys)

theorem outline_of_array {elements : List Value} (kind : (h.get id).kind = .array elements) :
    h.outline id = (some elements.length, []) := by
  simp only [outline, kind]

theorem outline_of_not_array (other : ∀ elements, (h.get id).kind ≠ .array elements) :
    h.outline id = (none, (h.get id).properties.keys) := by
  unfold outline
  split
  · rename_i elements kind
    exact absurd kind (other elements)
  · rfl

/-- Both heaps have the same objects with the same keys. -/
structure Shaped (h h' : Heap) : Prop where
  size : h'.objects.size = h.objects.size
  outline : ∀ x, h'.outline x = h.outline x

theorem Shaped.refl (h : Heap) : h.Shaped h := ⟨rfl, fun _ => rfl⟩

theorem Shaped.trans (first : h.Shaped h') (second : h'.Shaped h'') : h.Shaped h'' where
  size := second.size.trans first.size
  outline x := (second.outline x).trans (first.outline x)

theorem ownKeys_eq (h : Heap) (id : ObjectId) : h.ownKeys id = match h.outline id with
    | (some n, _) => (List.range n).map toString
    | (none, names) => names.filter fun key => !hiddenProperties.contains key := by
  unfold ownKeys dataProperties
  split
  · rename_i elements kind
    rw [outline_of_array kind]
  · rename_i other
    rw [outline_of_not_array other, Table.keys]
    dsimp only
    rw [List.filter_map]
    rfl

theorem hasOwnKey_eq (h : Heap) (id : ObjectId) (key : String) :
    h.hasOwnKey id key = match h.outline id with
    | (some n, _) => (Text.readIndex? key).any fun i => decide (i < n)
    | (none, names) => decide (key ∈ names) := by
  unfold hasOwnKey
  dsimp only
  split
  · rename_i elements kind
    rw [outline_of_array kind]
  · rename_i other
    rw [outline_of_not_array other]
    exact Bool.eq_iff_iff.mpr (Table.isSome_find_iff.trans decide_eq_true_iff.symm)

theorem Shaped.ownKeys (shaped : h.Shaped h') (x : ObjectId) : h'.ownKeys x = h.ownKeys x := by
  rw [ownKeys_eq, ownKeys_eq, shaped.outline]

theorem Shaped.hasOwnKey (shaped : h.Shaped h') (x : ObjectId) (key : String) :
    h'.hasOwnKey x key = h.hasOwnKey x key := by
  rw [hasOwnKey_eq, hasOwnKey_eq, shaped.outline]

/-- The own keys of an array spell indices, those of any other object are names that it has. -/
theorem own_cases (own : key ∈ h.ownKeys id) :
    (∃ elements i, (h.get id).kind = .array elements ∧ i < elements.length ∧ key = toString i) ∨
      ((∀ elements, (h.get id).kind ≠ .array elements) ∧
        (Table.find key (h.get id).properties.entries).isSome = true) := by
  unfold ownKeys at own
  split at own
  · rename_i elements kind
    obtain ⟨i, range, rfl⟩ := List.mem_map.mp own
    exact .inl ⟨elements, i, kind, List.mem_range.mp range, rfl⟩
  · rename_i other
    obtain ⟨p, found, rfl⟩ := List.mem_map.mp own
    exact .inr ⟨other, Table.isSome_find_iff.mpr (List.mem_map_of_mem (List.mem_of_mem_filter found))⟩

theorem allocated_of_own (own : key ∈ h.ownKeys id) : id < h.objects.size := by
  refine Nat.lt_of_not_le fun beyond => ?_
  rw [ownKeys, get_of_size_le h beyond, dataProperties, get_of_size_le h beyond] at own
  exact absurd own List.not_mem_nil

theorem ownKeys_of_size_le (beyond : h.objects.size ≤ id) : h.ownKeys id = [] :=
  List.eq_nil_iff_forall_not_mem.mpr fun _ own =>
    absurd (allocated_of_own own) (Nat.not_lt_of_le beyond)

section Objects

variable {o : HeapObject} {elements : List Value}

theorem property_of_not_array (other : ∀ elements, o.kind ≠ .array elements) (key : String) :
    HeapObject.property o key = (o.properties.get? key).getD .undefined := by
  unfold HeapObject.property
  split
  · rename_i elements kind
    exact absurd kind (other elements)
  · rfl

theorem storeProperty_element (kind : o.kind = .array elements) {i : Nat}
    (index : Text.readIndex? key = some i) (inside : i < elements.length) (v : Value) :
    HeapObject.storeProperty o key v = { o with kind := .array (elements.set i v) } := by
  unfold HeapObject.storeProperty
  simp only [kind, index, setAt, if_pos inside]

theorem storeProperty_name (named : (∀ elements, o.kind ≠ .array elements) ∨ Text.readIndex? key = none)
    (v : Value) :
    HeapObject.storeProperty o key v = { o with properties := o.properties.insert key v } := by
  unfold HeapObject.storeProperty
  split
  · rename_i elements kind
    rw [named.resolve_left fun other => other elements kind]
  · rfl

end Objects

theorem get_setProperty_self (own : key ∈ h.ownKeys id) (v : Value) :
    (h.setProperty id key v).get id = HeapObject.storeProperty (h.get id) key v :=
  get_modify_self (allocated_of_own own) _

theorem get_setProperty_of_ne (other : x ≠ id) (key : String) (v : Value) :
    (h.setProperty id key v).get x = h.get x :=
  get_modify_ne h other _

/-- A store under an own key of an object adds no key. -/
theorem shaped_setProperty (own : key ∈ h.ownKeys id) (v : Value) : h.Shaped (h.setProperty id key v) where
  size := size_modify h id _
  outline x := by
    by_cases here : x = id
    · subst here
      have get := get_setProperty_self own v
      rcases own_cases own with ⟨elements, i, kind, inside, rfl⟩ | ⟨other, known⟩
      · rw [outline_of_array kind]
        cases index : Text.readIndex? (toString i) with
        | some j =>
          have same : j = i := Text.eq_of_readIndex?_toString index
          rw [storeProperty_element kind index (same ▸ inside)] at get
          have kind' : ((h.setProperty x (toString i) v).get x).kind = .array (elements.set j v) := by
            rw [get]
          rw [outline_of_array kind', List.length_set]
        | none =>
          rw [storeProperty_name (.inr index)] at get
          have kind' : ((h.setProperty x (toString i) v).get x).kind = .array elements := by
            rw [get, ← kind]
          rw [outline_of_array kind']
      · rw [storeProperty_name (.inl other)] at get
        have other' : ∀ elements, ((h.setProperty x key v).get x).kind ≠ .array elements := by
          rw [get]
          exact other
        rw [outline_of_not_array other, outline_of_not_array other', get]
        exact congrArg _ (Table.keys_store known v)
    · unfold outline
      rw [get_setProperty_of_ne here]

theorem getProperty_setProperty_of_ne (other : x ≠ id) (key : String) (v : Value) (name : String) :
    (h.setProperty id key v).getProperty x name = h.getProperty x name := by
  rw [getProperty, get_setProperty_of_ne other, ← getProperty]

/-- A store under one own key of an object is read back under that key, and not under any other one. -/
theorem getProperty_setProperty_own (own : key ∈ h.ownKeys id) (own' : name ∈ h.ownKeys id) (v : Value) :
    (h.setProperty id key v).getProperty id name = if name = key then v else h.getProperty id name := by
  rw [getProperty, getProperty, get_setProperty_self own]
  have stored := own_cases own
  have read := own_cases own'
  generalize h.get id = o at stored read ⊢
  have inserted : ((o.properties.insert key v).get? name).getD .undefined =
      if name = key then v else (o.properties.get? name).getD .undefined := by
    rw [Table.get?_insert]
    by_cases same : key = name
    · rw [if_pos same, if_pos same.symm]
      rfl
    · rw [if_neg same, if_neg (Ne.symm same)]
  rcases stored with ⟨elements, i, kind, inside, rfl⟩ | ⟨other, -⟩
  · rcases read with ⟨elements', j, -, -, rfl⟩ | ⟨other, -⟩
    · cases index : Text.readIndex? (toString i) with
      | some i' =>
        have same : i' = i := Text.eq_of_readIndex?_toString index
        subst same
        rw [storeProperty_element kind index inside, property_setElement kind index inside]
        refine if_congr ⟨fun index' => ?_, fun same => ?_⟩ rfl rfl
        · rw [Text.eq_of_readIndex?_toString index']
        · rw [same, index]
      | none =>
        -- an index that is too large to be read as one is a name like any other
        rw [storeProperty_name (.inr index)]
        have kind' : ({ o with properties := o.properties.insert (toString i) v } : HeapObject).kind =
          .array elements := kind
        rw [property_of_array kind', property_of_array kind, if_neg (Text.toString_ne_length j),
          if_neg (Text.toString_ne_length j)]
        cases index' : Text.readIndex? (toString j) with
        | some k =>
          have distinct : toString j ≠ toString i := fun same => by
            rw [same, index] at index'
            cases index'
          rw [if_neg distinct]
        | none => exact inserted
    · exact absurd kind (other elements)
  · rw [storeProperty_name (.inl other), property_of_not_array other]
    exact (property_of_not_array (o := { o with properties := o.properties.insert key v }) other name).trans
      inserted

/-- An object is reached from another one along the keys of walks: elements of arrays, and properties
that walks do not leave out. -/
inductive Descends (h : Heap) (id : ObjectId) : ObjectId → Prop where
  | self : Descends h id id
  | step {x y : ObjectId} {key : String} (reached : Descends h id x) (own : key ∈ h.ownKeys x)
      (holds : h.getProperty x key = .object y) : Descends h id y

theorem Descends.through {child : ObjectId} (own : key ∈ h.ownKeys id)
    (holds : h.getProperty id key = .object child) (reached : h.Descends child x) : h.Descends id x := by
  induction reached with
  | self => exact .step .self own holds
  | step _ own' holds' ih => exact .step ih own' holds'

/-- The value is an object that reaches the object. -/
def Below (h : Heap) (v : Value) (x : ObjectId) : Prop := ∃ id, v.object? = some id ∧ h.Descends id x

/-- How many objects on the heap a walk has not entered yet. -/
def unvisited (h : Heap) (visited : List ObjectId) : Nat :=
  (Finset.range h.objects.size \ visited.toFinset).card

theorem unvisited_mono {visited visited' : List ObjectId} (more : visited ⊆ visited') :
    h.unvisited visited' ≤ h.unvisited visited := by
  refine Finset.card_le_card (Finset.sdiff_subset_sdiff (Finset.Subset.refl _) fun x => ?_)
  rw [List.mem_toFinset, List.mem_toFinset]
  exact fun here => more here

theorem unvisited_cons_lt {visited : List ObjectId} (allocated : x < h.objects.size) (fresh : x ∉ visited) :
    h.unvisited (x :: visited) < h.unvisited visited := by
  refine Finset.card_lt_card (Finset.ssubset_iff_of_subset ?_ |>.mpr ⟨x, ?_, ?_⟩)
  · refine Finset.sdiff_subset_sdiff (Finset.Subset.refl _) fun y => ?_
    rw [List.mem_toFinset, List.mem_toFinset]
    exact List.mem_cons_of_mem x
  · rw [Finset.mem_sdiff, Finset.mem_range, List.mem_toFinset]
    exact ⟨allocated, fresh⟩
  · rw [Finset.mem_sdiff, List.mem_toFinset]
    exact fun outside => outside.2 List.mem_cons_self

end Heap

namespace Memory

variable {m m' m'' : Memory} {id x y : ObjectId} {key : String} {v : Value}

/-- Some properties hold what their shadows stood for, and otherwise the heap is the same. -/
structure Unveils (m m' : Memory) : Prop where
  shaped : m.heap.Shaped m'.heap
  wraps : m'.shadow.wraps = m.shadow.wraps
  minted : m.shadow.nextIdentity ≤ m'.shadow.nextIdentity
  value : ∀ x key, m'.heap.getProperty x key = m.heap.getProperty x key ∨
    m'.heap.getProperty x key = m.valueOf (m.heap.getProperty x key)

instance : IsPreorder Memory Unveils where
  refl _ := ⟨.refl _, rfl, Nat.le_refl _, fun _ _ => .inl rfl⟩
  trans m₁ m₂ _ first second :=
    { shaped := first.shaped.trans second.shaped
      wraps := second.wraps.trans first.wraps
      minted := Nat.le_trans first.minted second.minted
      value := fun x key => by
        rcases second.value x key with same | bare
        · rw [same]
          exact first.value x key
        · right
          rw [bare, valueOf_of_wraps first.wraps]
          rcases first.value x key with same | bare
          · rw [same]
          · rw [bare, valueOf_valueOf] }

/-- The property holds no shadow. -/
def Bare (m : Memory) (x : ObjectId) (key : String) : Prop :=
  (m.heap.getProperty x key).raw = m.heap.getProperty x key

theorem bare_of_object (holds : m.heap.getProperty x key = .object y) : m.Bare x key := by
  rw [Bare, holds]
  rfl

namespace Unveils

variable (unveils : m.Unveils m')
include unveils

theorem bare (bare : m.Bare x key) : m'.Bare x key := by
  rcases unveils.value x key with same | unveiled
  · rw [Bare, same]
    exact bare
  · rw [Bare, unveiled]
    exact m.shadow.raw_valueOf _

/-- What a property stands for is the same. -/
theorem stands (x : ObjectId) (key : String) :
    m'.valueOf (m'.heap.getProperty x key) = m.valueOf (m.heap.getProperty x key) := by
  rw [valueOf_of_wraps unveils.wraps]
  rcases unveils.value x key with same | bare
  · rw [same]
  · rw [bare, valueOf_valueOf]

/-- A property holds an object if it has held it before. -/
theorem holds_iff : m'.heap.getProperty x key = .object y ↔ m.heap.getProperty x key = .object y := by
  rcases unveils.value x key with same | bare
  · rw [same]
  · rw [bare]
    refine ⟨fun object => MemoryM.objectOf?_eq_some (m := m) ?_, fun object => ?_⟩
    · rw [objectOf?, object]
      rfl
    · rw [object]
      rfl

theorem descends_iff : m'.heap.Descends id x ↔ m.heap.Descends id x := by
  constructor <;> intro reached
  · induction reached with
    | self => exact .self
    | step _ own holds ih => exact .step ih (unveils.shaped.ownKeys _ ▸ own) (unveils.holds_iff.mp holds)
  · induction reached with
    | self => exact .self
    | step _ own holds ih =>
      exact .step ih ((unveils.shaped.ownKeys _).symm ▸ own) (unveils.holds_iff.mpr holds)

end Unveils

end Memory

namespace MemoryM

section Sweeping

variable {m m' : Memory} {id x y : ObjectId} {key : String} {v : Value} {keys : List String}
  {visited visited' : List ObjectId} {trees children : List TaintTree}

theorem heap_stripProperty (id : ObjectId) (key : String) (children : List TaintTree) (v : Value)
    (m : Memory) : (stripProperty id key children v m).2.heap = m.heap.setProperty id key (m.valueOf v) := by
  show (identityOf v m).2.heap.setProperty id key ((identityOf v m).2.valueOf v) = _
  rw [(issues_identityOf v m).heap, valueOf_of_wraps (bares_identityOf v m).wraps]

/-- An own key of an object holds no shadow once it was taken off. -/
theorem getProperty_stripProperty (own : key ∈ m.heap.ownKeys id) (children : List TaintTree) (v : Value) :
    (stripProperty id key children v m).2.heap.getProperty id key = m.valueOf v := by
  rw [heap_stripProperty, Heap.getProperty_setProperty_own own own, if_pos rfl]

theorem unveils_stripProperty (own : key ∈ m.heap.ownKeys id) (holds : m.heap.getProperty id key = v)
    (children : List TaintTree) : m.Unveils (stripProperty id key children v m).2 where
  shaped := by
    rw [heap_stripProperty]
    exact Heap.shaped_setProperty own _
  wraps := (bares_identityOf v m).wraps
  minted := (bares_identityOf v m).minted
  value x name := by
    rw [heap_stripProperty]
    rcases Heap.getProperty_setProperty (Heap.inside_of_mem_ownKeys own) (m.valueOf v) x name with
      same | ⟨stored, old, -⟩
    · exact .inl same
    · rw [stored, old, holds]
      exact .inr rfl

/-- A property that holds an object is stored again after what lies below it was swept. -/
theorem unveils_stripChild {child : ObjectId} {m₁ : Memory} (own : key ∈ m.heap.ownKeys id)
    (holds : m.heap.getProperty id key = .object child) (below : m.Unveils m₁)
    (children : List TaintTree) : m.Unveils (stripProperty id key children (.object child) m₁).2 :=
  trans_of Unveils below
    (unveils_stripProperty ((below.shaped.ownKeys id).symm ▸ own) (below.holds_iff.mpr holds) children)

/-- A walk over some own keys of an object that has come to its end, with the objects entered before it
and after it, and the trees of the properties that it has come to. The list of objects has one entry for
each time that a walk has gone into an object. -/
inductive Sweeps : ObjectId → List String → List ObjectId → Memory → List TaintTree → List ObjectId →
    Memory → Prop where
  | done (id : ObjectId) (visited : List ObjectId) (m : Memory) : Sweeps id [] visited m [] visited m
  | value {id : ObjectId} {key : String} {keys : List String} {visited visited' : List ObjectId}
      {m m' : Memory} {trees : List TaintTree} {v : Value} (own : key ∈ m.heap.ownKeys id)
      (holds : m.heap.getProperty id key = v) (value : v.object? = none)
      (rest : Sweeps id keys visited (stripProperty id key [] v m).2 trees visited' m') :
      Sweeps id (key :: keys) visited m ((stripProperty id key [] v m).1 :: trees) visited' m'
  | seen {id child : ObjectId} {key : String} {keys : List String} {visited visited' : List ObjectId}
      {m m' : Memory} {trees : List TaintTree} (own : key ∈ m.heap.ownKeys id)
      (holds : m.heap.getProperty id key = .object child) (seen : child ∈ visited)
      (rest : Sweeps id keys visited m trees visited' m') :
      Sweeps id (key :: keys) visited m trees visited' m'
  | child {id child : ObjectId} {key : String} {keys : List String}
      {visited visited₁ visited' : List ObjectId} {m m₁ m' : Memory} {children trees : List TaintTree}
      (own : key ∈ m.heap.ownKeys id) (holds : m.heap.getProperty id key = .object child)
      (fresh : child ∉ visited)
      (inside : Sweeps child (m.heap.ownKeys child) (child :: visited) m children visited₁ m₁)
      (rest : Sweeps id keys visited₁ (stripProperty id key children (.object child) m₁).2 trees
        visited' m') :
      Sweeps id (key :: keys) visited m ((stripProperty id key children (.object child) m₁).1 :: trees)
        visited' m'

namespace Sweeps

/-- Entered objects stay entered, and none is entered twice. -/
theorem remembers (sweeps : Sweeps id keys visited m trees visited' m') :
    visited ⊆ visited' ∧ (visited.Nodup → visited'.Nodup) := by
  induction sweeps with
  | done => exact ⟨List.Subset.refl _, fun once => once⟩
  | value _ _ _ _ ih => exact ih
  | seen _ _ _ _ ih => exact ih
  | child _ _ fresh _ _ inside rest =>
    exact ⟨fun x here => rest.1 (inside.1 (List.mem_cons_of_mem _ here)),
      fun once => rest.2 (inside.2 (List.nodup_cons.mpr ⟨fresh, once⟩))⟩

theorem unveils (sweeps : Sweeps id keys visited m trees visited' m') : m.Unveils m' := by
  induction sweeps with
  | done => exact refl_of Unveils _
  | value own holds _ _ ih => exact trans_of Unveils (unveils_stripProperty own holds []) ih
  | seen _ _ _ _ ih => exact ih
  | child own holds _ _ _ inside rest =>
    exact trans_of Unveils (unveils_stripChild own holds inside _) rest

/-- A walk leaves alone what it does not enter: objects that it never comes to, and objects that were
entered before and are not the one whose keys it goes over. -/
theorem away (sweeps : Sweeps id keys visited m trees visited' m') (other : x ≠ id)
    (left : x ∈ visited ∨ x ∉ visited') : m'.heap.get x = m.heap.get x := by
  induction sweeps with
  | done => rfl
  | value _ _ _ _ ih => rw [ih other left, heap_stripProperty, Heap.get_setProperty_of_ne other]
  | seen _ _ _ _ ih => exact ih other left
  | @child _ child _ _ _ _ _ _ _ _ _ _ _ _ fresh inside rest below later =>
    have more := rest.remembers.1
    have into := inside.remembers.1
    have apart : x ≠ child := by
      rintro rfl
      exact left.elim fresh fun outside => outside (more (into List.mem_cons_self))
    rw [later other (left.imp_left fun here => into (List.mem_cons_of_mem _ here)), heap_stripProperty,
      Heap.get_setProperty_of_ne other,
      below apart (left.imp (List.mem_cons_of_mem _) fun outside here => outside (more here))]

/-- The keys that a walk goes over, and the own keys of all objects that it enters, hold no shadows when
it is done, also where it came back to an object that it had not left yet. -/
theorem bare (sweeps : Sweeps id keys visited m trees visited' m') :
    (∀ key ∈ keys, m'.Bare id key) ∧
      ∀ x ∈ visited', x ∉ visited → ∀ key ∈ m.heap.ownKeys x, m'.Bare x key := by
  -- on the walk: a key is bare as soon as it was gone over, and what comes later keeps it so
  induction sweeps with
  | done => exact ⟨fun _ here => (nomatch here), fun _ here new => absurd here new⟩
  | @value id key _ _ _ m _ _ v own holds _ rest ih =>
    have first := unveils_stripProperty own holds []
    have stripped : (stripProperty id key [] v m).2.Bare id key := by
      rw [Bare, getProperty_stripProperty own]
      exact m.shadow.raw_valueOf _
    exact ⟨List.forall_mem_cons.mpr ⟨rest.unveils.bare stripped, ih.1⟩,
      fun x entered new name mem => ih.2 x entered new name ((first.shaped.ownKeys x).symm ▸ mem)⟩
  | seen _ holds _ rest ih =>
    exact ⟨List.forall_mem_cons.mpr ⟨rest.unveils.bare (bare_of_object holds), ih.1⟩, ih.2⟩
  | @child _ child _ _ visited visited₁ _ _ _ _ children _ own holds _ inside rest below later =>
    have first := unveils_stripChild own holds inside.unveils children
    have after := trans_of Unveils (unveils_stripProperty ((inside.unveils.shaped.ownKeys _).symm ▸ own)
      (inside.unveils.holds_iff.mpr holds) children) rest.unveils
    refine ⟨List.forall_mem_cons.mpr ⟨rest.unveils.bare (first.bare (bare_of_object holds)), later.1⟩,
      fun x entered new name mem => ?_⟩
    -- the object is the child, it was entered below the child, or later
    by_cases early : x ∈ visited₁
    · by_cases same : x = child
      · exact after.bare (same ▸ below.1 name (same ▸ mem))
      · have apart : x ∉ child :: visited := fun here => (List.mem_cons.mp here).elim same new
        exact after.bare (below.2 x early apart name mem)
    · exact later.2 x entered early name ((first.shaped.ownKeys x).symm ▸ mem)

/-- A walk enters only objects that its object reaches. -/
theorem sound (sweeps : Sweeps id keys visited m trees visited' m') :
    ∀ x ∈ visited', x ∈ visited ∨ m.heap.Descends id x := by
  induction sweeps with
  | done => exact fun _ here => .inl here
  | value own holds _ _ ih =>
    exact fun x here => (ih x here).imp_right (unveils_stripProperty own holds []).descends_iff.mp
  | seen _ _ _ _ ih => exact ih
  | @child _ _ _ _ _ _ _ _ _ _ children _ own holds _ inside _ below later =>
    have first := unveils_stripChild own holds inside.unveils children
    intro x here
    rcases later x here with here | reached
    · rcases below x here with here | reached
      · rcases List.mem_cons.mp here with rfl | here
        · exact .inr (.step .self own holds)
        · exact .inl here
      · exact .inr (reached.through own holds)
    · exact .inr (first.descends_iff.mp reached)

/-- An object that a walk comes to is entered, before the walk, by it or below it. -/
theorem closed (sweeps : Sweeps id keys visited m trees visited' m') :
    (∀ key ∈ keys, ∀ y, m.heap.getProperty id key = .object y → y ∈ visited') ∧
      ∀ x ∈ visited', x ∉ visited → ∀ key ∈ m.heap.ownKeys x, ∀ y,
        m.heap.getProperty x key = .object y → y ∈ visited' := by
  induction sweeps with
  | done => exact ⟨fun _ here => (nomatch here), fun _ here new => absurd here new⟩
  | value own holds value rest ih =>
    have first := unveils_stripProperty own holds []
    refine ⟨List.forall_mem_cons.mpr ⟨fun y object => ?_, fun name mem y object => ?_⟩,
      fun x entered new name mem y object => ?_⟩
    · rw [← holds, object] at value
      cases value
    · exact ih.1 name mem y (first.holds_iff.mpr object)
    · exact ih.2 x entered new name ((first.shaped.ownKeys x).symm ▸ mem) y (first.holds_iff.mpr object)
  | seen _ holds seen rest ih =>
    refine ⟨List.forall_mem_cons.mpr ⟨fun y object => ?_, ih.1⟩, ih.2⟩
    rw [holds] at object
    cases object
    exact rest.remembers.1 seen
  | @child _ child _ _ visited visited₁ _ _ _ _ children _ own holds _ inside rest below later =>
    have first := unveils_stripChild own holds inside.unveils children
    have more := rest.remembers.1
    refine ⟨List.forall_mem_cons.mpr ⟨fun y object => ?_, fun name mem y object => ?_⟩,
      fun x entered new name mem y object => ?_⟩
    · rw [holds] at object
      cases object
      exact more (inside.remembers.1 List.mem_cons_self)
    · exact later.1 name mem y (first.holds_iff.mpr object)
    · by_cases early : x ∈ visited₁
      · by_cases same : x = child
        · exact more (below.1 name (same ▸ mem) y (same ▸ object))
        · have apart : x ∉ child :: visited := fun here => (List.mem_cons.mp here).elim same new
          exact more (below.2 x early apart name mem y object)
      · exact later.2 x entered early name ((first.shaped.ownKeys x).symm ▸ mem) y
          (first.holds_iff.mpr object)

/-- A walk over everything that an object has enters exactly what the object reaches. -/
theorem mem_iff (sweeps : Sweeps id (m.heap.ownKeys id) [id] m trees visited' m') :
    x ∈ visited' ↔ m.heap.Descends id x := by
  refine ⟨fun entered => ?_, fun reached => ?_⟩
  · rcases sweeps.sound x entered with start | reached
    · rw [List.mem_singleton.mp start]
      exact .self
    · exact reached
  · induction reached with
    | self => exact sweeps.remembers.1 List.mem_cons_self
    | @step x y key _ own holds ih =>
      by_cases same : x = id
      · subst same
        exact sweeps.closed.1 key own y holds
      · exact sweeps.closed.2 x ih (fun start => same (List.mem_singleton.mp start)) key own y holds

end Sweeps

/-- The loop over the keys of an object, from what each turn does. -/
theorem sweeps_foldlM {f : List TaintTree × List ObjectId → String →
      MemoryM (List TaintTree × List ObjectId)} {id : ObjectId} {m₀ : Memory} {visited₀ : List ObjectId}
    (turn : ∀ key trees visited m, m₀.heap.Shaped m.heap → visited₀ ⊆ visited → key ∈ m.heap.ownKeys id →
      ∃ more visited' m', f (trees, visited) key m = ((trees ++ more, visited'), m') ∧
        ∀ keys later visited'' m'', Sweeps id keys visited' m' later visited'' m'' →
          Sweeps id (key :: keys) visited m (more ++ later) visited'' m'')
    (keys : List String) (own : keys ⊆ m₀.heap.ownKeys id) (trees : List TaintTree)
    (visited : List ObjectId) (m : Memory) (shaped : m₀.heap.Shaped m.heap) (seen : visited₀ ⊆ visited) :
    ∃ more visited' m', keys.foldlM f (trees, visited) m = ((trees ++ more, visited'), m') ∧
      Sweeps id keys visited m more visited' m' := by
  induction keys generalizing trees visited m with
  | nil => exact ⟨[], visited, m, by rw [List.append_nil]; rfl, .done id visited m⟩
  | cons key rest ih =>
    obtain ⟨more, visited₁, m₁, run, first⟩ := turn key trees visited m shaped seen
      ((shaped.ownKeys id).symm ▸ own List.mem_cons_self)
    have alone := first [] [] visited₁ m₁ (.done id visited₁ m₁)
    obtain ⟨later, visited₂, m₂, run', sweeps⟩ := ih (fun _ here => own (List.mem_cons_of_mem _ here))
      (trees ++ more) visited₁ m₁ (shaped.trans alone.unveils.shaped)
      (fun _ here => alone.remembers.1 (seen here))
    refine ⟨more ++ later, visited₂, m₂, ?_, first rest later visited₂ m₂ sweeps⟩
    rw [List.foldlM_cons, bind_apply, run, ← List.append_assoc]
    exact run'

/-- The walk comes to its end. Every level goes into an object that was not entered before, so a depth
above the number of these does not run out, and an object that is missing from the heap needs none. -/
theorem sweeps_stripProperties (depth : Nat) (id : ObjectId) (visited : List ObjectId) (m : Memory)
    (room : id < m.heap.objects.size → m.heap.unvisited visited < depth) :
    ∃ trees visited' m', stripProperties depth id visited m = ((trees, visited'), m') ∧
      Sweeps id (m.heap.ownKeys id) visited m trees visited' m' := by
  induction depth generalizing id visited m with
  | zero =>
    have missing := Nat.le_of_not_lt fun allocated => absurd (room allocated) (Nat.not_lt_zero _)
    rw [Heap.ownKeys_of_size_le missing]
    exact ⟨[], visited, m, rfl, .done id visited m⟩
  | succ depth ih =>
    rw [stripProperties, bind_apply, get_apply]
    refine sweeps_foldlM ?_ (m.heap.ownKeys id) (List.Subset.refl _) [] visited m (.refl _)
      (List.Subset.refl visited)
    intro key trees visited' m' shaped seen own
    dsimp only
    rw [bind_apply, get_apply]
    dsimp only
    rw [objectOf?_eq]
    rcases object : (m'.heap.getProperty id key).object? with _ | child
    · exact ⟨[_], visited', _, rfl, fun _ _ _ _ rest => .value own rfl object rest⟩
    · have holds : m'.heap.getProperty id key = .object child :=
        objectOf?_eq_some (m := m') ((objectOf?_eq m' _).trans object)
      dsimp only
      by_cases entered : child ∈ visited'
      · rw [if_pos entered]
        exact ⟨[], visited', m', by rw [List.append_nil]; rfl,
          fun _ _ _ _ rest => .seen own holds entered rest⟩
      · rw [if_neg entered]
        obtain ⟨children, visited₁, m₁, run, inside⟩ := ih child (child :: visited') m' fun allocated => by
          have room := room (shaped.size ▸ Heap.allocated_of_own own)
          have fewer := Heap.unvisited_cons_lt allocated entered
          have before : m'.heap.unvisited visited' ≤ m.heap.unvisited visited := by
            rw [Heap.unvisited, shaped.size]
            exact Heap.unvisited_mono seen
          omega
        refine ⟨[_], visited₁, _, ?_, fun _ _ _ _ rest => .child own holds entered inside rest⟩
        rw [bind_apply, run, holds]
        rfl

end Sweeping

section Unwrapping

variable {m : Memory} {v : Value}

/-- Taking the shadow off a value reserves its identity and changes no property. -/
theorem unveils_unwrap (v : Value) (m : Memory) : m.Unveils (unwrap v m).2 where
  shaped := by
    rw [(issues_unwrap v m).heap]
    exact .refl _
  wraps := (bares_unwrap v m).wraps
  minted := (bares_unwrap v m).minted
  value _ _ := by
    rw [(issues_unwrap v m).heap]
    exact .inl rfl

theorem reserved_unwrap (v : Value) (m : Memory) :
    (unwrap v m).2.shadow.frame.reserved = (identityOf v m).1 :: m.shadow.frame.reserved := by
  show (identityOf v m).1 :: (identityOf v m).2.shadow.frame.reserved = _
  rw [(spreads_identityOf v m).frame]

/-- The shadows below an object are taken off by a walk over all its own keys. -/
theorem sweeps_unwrapObject (id : ObjectId) (m : Memory) :
    ∃ trees visited m₁, unwrapObject (.object id) m = ((.object id, trees), (unwrap (.object id) m₁).2) ∧
      Sweeps id (m.heap.ownKeys id) [id] m trees visited m₁ ∧ m₁.shadow.frame = m.shadow.frame := by
  have room (allocated : id < m.heap.objects.size) : m.heap.unvisited [id] < m.heap.objects.size := by
    have fewer := Heap.unvisited_cons_lt allocated (List.not_mem_nil (a := id))
    have all : m.heap.unvisited [] = m.heap.objects.size := by
      rw [Heap.unvisited, List.toFinset_nil, Finset.sdiff_empty, Finset.card_range]
    rwa [all] at fewer
  obtain ⟨trees, visited, m₁, run, sweeps⟩ := sweeps_stripProperties m.heap.objects.size id [id] m room
  have frame := (strips_stripProperties m.heap.objects.size id [id] m).1.frame
  rw [run] at frame
  refine ⟨trees, visited, m₁, ?_, sweeps, frame⟩
  have object : m.objectOf? (.object id) = some id := rfl
  unfold unwrapObject
  rw [bind_apply, get_apply]
  dsimp only
  rw [object]
  dsimp only
  rw [bind_apply, run]
  rfl

/-- Taking the shadows off a value and everything below it comes to its end, whatever the heap looks like.
It goes into exactly the objects that the value reaches, once into each, and afterwards no own key of
these holds a shadow. What every property on the heap stands for is the same as before, objects that
the value does not reach are the same altogether, and one more identity is reserved, that of the value. -/
theorem unwrapObject_strips (v : Value) (m : Memory) :
    ∃ trees entered m' identity, unwrapObject v m = ((m.valueOf v, trees), m') ∧
      (∀ id, v.object? = some id → ∃ m₁, Sweeps id (m.heap.ownKeys id) [id] m trees entered m₁ ∧
        unwrap v m₁ = (m.valueOf v, m')) ∧
      entered.Nodup ∧ (∀ x, x ∈ entered ↔ m.heap.Below v x) ∧
      (∀ x, m'.heap.Below v x ↔ m.heap.Below v x) ∧
      (∀ x, m'.heap.Below v x → ∀ key ∈ m'.heap.ownKeys x, ∀ handle own raw,
        m'.heap.getProperty x key ≠ .shadow handle own raw) ∧
      (∀ x key, m'.valueOf (m'.heap.getProperty x key) = m.valueOf (m.heap.getProperty x key)) ∧
      (∀ x, ¬ m.heap.Below v x → m'.heap.get x = m.heap.get x) ∧
      m.Reads v identity ∧ m'.shadow.frame.reserved = identity :: m.shadow.frame.reserved := by
  rcases object : v.object? with _ | id
  · -- no object is reached from a literal
    have unreached (h : Heap) (x : ObjectId) : ¬ h.Below v x := by
      rintro ⟨id, held, -⟩
      rw [object] at held
      cases held
    have run : unwrapObject v m = ((m.valueOf v, []), (unwrap v m).2) := by
      unfold unwrapObject
      rw [bind_apply, get_apply]
      dsimp only
      rw [objectOf?_eq, object]
      rfl
    refine ⟨[], [], _, _, run, fun _ held => (nomatch held), List.nodup_nil,
      fun x => iff_of_false List.not_mem_nil (unreached _ x), fun x => iff_of_false (unreached _ x) (unreached _ x),
      fun x below => absurd below (unreached _ x), (unveils_unwrap v m).stands, fun x _ => ?_,
      reads_identityOf v m, reserved_unwrap v m⟩
    rw [(issues_unwrap v m).heap]
  · obtain rfl : v = .object id := objectOf?_eq_some (m := m) ((objectOf?_eq m v).trans object)
    obtain ⟨trees, entered, m₁, run, sweeps, frame⟩ := sweeps_unwrapObject id m
    have last := unveils_unwrap (.object id) m₁
    have unveils := trans_of Unveils sweeps.unveils last
    have below (h : Heap) (x : ObjectId) : h.Below (.object id) x ↔ h.Descends id x :=
      ⟨fun ⟨_, same, reached⟩ => by cases same; exact reached, fun reached => ⟨id, rfl, reached⟩⟩
    refine ⟨trees, entered, _, _, run, fun other same => ?_, sweeps.remembers.2 (List.nodup_singleton id),
      fun x => sweeps.mem_iff.trans (below _ x).symm,
      fun x => (below _ x).trans (unveils.descends_iff.trans (below _ x).symm),
      fun x reached key own handle other raw holds => ?_, unveils.stands, fun x outside => ?_,
      (reads_identityOf _ m₁).mono sweeps.unveils.wraps sweeps.unveils.minted,
      (reserved_unwrap _ m₁).trans (by rw [frame])⟩
    · cases same
      exact ⟨m₁, sweeps, rfl⟩
    · rw [unveils.shaped.ownKeys] at own
      have entered' := sweeps.mem_iff.mpr (unveils.descends_iff.mp ((below _ x).mp reached))
      have bare : m₁.Bare x key := by
        by_cases same : x = id
        · exact same ▸ sweeps.bare.1 key (same ▸ own)
        · exact sweeps.bare.2 x entered' (fun start => same (List.mem_singleton.mp start)) key own
      have shadow := last.bare bare
      rw [Bare, holds] at shadow
      cases shadow
    · have out : x ∉ entered := fun here => outside ((below _ x).mpr (sweeps.mem_iff.mp here))
      have apart : x ≠ id := fun same => outside ((below _ x).mpr (same ▸ .self))
      rw [(issues_unwrap _ m₁).heap]
      exact sweeps.away apart (.inr out)

end Unwrapping

end MemoryM

end ShadowTaint
