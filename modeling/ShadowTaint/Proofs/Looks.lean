import Mathlib.Data.List.GetD
import ShadowTaint.Proofs.Contents
import ShadowTaint.Proofs.Stripping
/-!
# What properties show

A property that holds a shadow shows the literal that the shadow stands for, and any other property shows
what it holds. Taking shadows off properties and putting them back changes what properties hold, and
wrapping a container changes what its elements are, but all of it leaves what they show alone.

## Main definitions

- `Memory.Stands`: a value is, or stands for, another one.
- `Memory.Shows`: a property shows a value.
- `Memory.Looks`: properties show what they showed before.

## Main statements

- `Heap.getProperty_setProperty`: a property that is read after a store.
- `MemoryM.looks_wrap`: wrapping a value does not change what properties show.

## Design notes

A handle that is not known may become one that stands for something else, so a property that holds such a
shadow shows nothing for good. Under a name that is no index it counts as showing every literal: nothing
but a store changes such a property, so it goes on holding its shadow.
-/

namespace ShadowTaint

open Memory

/-- A number that is read is read with any bound above it. -/
theorem Text.readNatural?_of_lt {bound bound' n : Nat} {s : String} (read : readNatural? bound s = some n)
    (small : n < bound') : readNatural? bound' s = some n := by
  unfold readNatural? at read ⊢
  obtain ⟨n', digits, within⟩ := Option.bind_eq_some_iff.mp read
  split at within
  · cases within
    exact Option.bind_eq_some_iff.mpr ⟨n, digits, if_pos small⟩
  · cases within

namespace Heap

section Objects

variable {o : HeapObject} {elements : List Value} {key name : String}

theorem property_of_array (kind : o.kind = .array elements) (name : String) :
    HeapObject.property o name =
      if name = "length" then .number (Decimal.ofNat elements.length)
      else match Text.readIndex? name with
        | some i => elements.getD i .undefined
        | none => (o.properties.get? name).getD .undefined := by
  cases o
  cases kind
  rfl

theorem readIndex?_length : Text.readIndex? "length" = none := by decide +kernel

/-- A new element of an array is read under its index only. -/
theorem property_setElement (kind : o.kind = .array elements) {i : Nat}
    (index : Text.readIndex? key = some i) (inside : i < elements.length) (v : Value) (name : String) :
    HeapObject.property { o with kind := .array (elements.set i v) } name =
      if Text.readIndex? name = some i then v else HeapObject.property o name := by
  rw [property_of_array rfl, property_of_array kind, List.length_set]
  by_cases length : name = "length"
  · subst length
    rw [readIndex?_length]
    rfl
  · rw [if_neg length, if_neg length]
    cases other : Text.readIndex? name with
    | none => rfl
    | some j =>
      dsimp only
      by_cases same : j = i
      · subst same
        rw [if_pos rfl, List.getD_eq_getElem?_getD, List.getElem?_set_self inside]
        rfl
      · rw [if_neg fun eq => same (Option.some.inj eq), List.getD_eq_getElem?_getD,
          List.getElem?_set_ne (Ne.symm same), ← List.getD_eq_getElem?_getD]

/-- What is stored under a name is read under that name, but not the length of an array and not its
elements. -/
theorem property_insert (o : HeapObject) (key : String) (v : Value) (name : String) :
    HeapObject.property { o with properties := o.properties.insert key v } name =
        HeapObject.property o name ∨
      (HeapObject.property { o with properties := o.properties.insert key v } name = v ∧ name = key) := by
  by_cases same : key = name
  · subst same
    have found : (o.properties.insert key v).get? key = some v := by
      rw [Table.get?_insert, if_pos rfl]
    unfold HeapObject.property
    dsimp only
    rw [found]
    split
    · split
      · exact .inl rfl
      · split
        · exact .inl rfl
        · exact .inr ⟨rfl, rfl⟩
    · exact .inr ⟨rfl, rfl⟩
  · left
    have found : (o.properties.insert key v).get? name = o.properties.get? name := by
      rw [Table.get?_insert, if_neg same]
    unfold HeapObject.property
    dsimp only
    rw [found]

/-- Reading a property after a store under a key that does not make an array longer: the property is as
before, or it is the stored one, and then the two keys spell the same property. -/
theorem property_storeProperty
    (inside : ∀ elements i, o.kind = .array elements → Text.readIndex? key = some i →
      i < elements.length) (v : Value) (name : String) :
    HeapObject.property (HeapObject.storeProperty o key v) name = HeapObject.property o name ∨
      (HeapObject.property (HeapObject.storeProperty o key v) name = v ∧
        HeapObject.property o name = HeapObject.property o key ∧
        Text.readIndex? name = Text.readIndex? key) := by
  have inserted := property_insert o key v name
  have named {w : Value} (h : w = v ∧ name = key) : w = v ∧ HeapObject.property o name =
      HeapObject.property o key ∧ Text.readIndex? name = Text.readIndex? key := by
    obtain ⟨stored, rfl⟩ := h
    exact ⟨stored, rfl, rfl⟩
  unfold HeapObject.storeProperty
  split
  · rename_i elements kind
    split
    · rename_i i index
      have short := inside elements i kind index
      rw [setAt, if_pos short, property_setElement kind index short]
      split
      · rename_i same
        have spelled {k : String} (index : Text.readIndex? k = some i) :
            HeapObject.property o k = elements.getD i .undefined := by
          have other : k ≠ "length" := by
            rintro rfl
            rw [readIndex?_length] at index
            cases index
          rw [property_of_array kind, if_neg other, index]
        exact .inr ⟨rfl, (spelled same).trans (spelled index).symm, same.trans index.symm⟩
      · exact .inl rfl
    · exact inserted.imp_right named
  · exact inserted.imp_right named

/-- A property can be read back where it was stored, unless it held no shadow anyway. -/
theorem property_storeProperty_self
    (inside : ∀ elements i, o.kind = .array elements → Text.readIndex? key = some i →
      i < elements.length) (v : Value) :
    HeapObject.property (HeapObject.storeProperty o key v) key = v ∨
      (HeapObject.property (HeapObject.storeProperty o key v) key).raw =
        HeapObject.property (HeapObject.storeProperty o key v) key := by
  unfold HeapObject.storeProperty
  split
  · rename_i elements kind
    split
    · rename_i i index
      have short := inside elements i kind index
      left
      rw [setAt, if_pos short, property_setElement kind index short, if_pos index]
    · rename_i index
      have read := property_of_array
        (o := { o with properties := o.properties.insert key v }) kind key
      rw [index] at read
      rw [read]
      split
      · exact .inr rfl
      · left
        dsimp only
        rw [Table.get?_insert, if_pos rfl]
        rfl
  · rename_i other
    left
    unfold HeapObject.property
    split
    · rename_i kind
      exact (other _ kind).elim
    · dsimp only
      rw [Table.get?_insert, if_pos rfl]
      rfl

end Objects

variable {h : Heap} {id x : ObjectId} {key name : String}

/-- A store under the key does not make an array longer. -/
def Inside (h : Heap) (id : ObjectId) (key : String) : Prop :=
  ∀ elements i, (h.get id).kind = .array elements → Text.readIndex? key = some i → i < elements.length

theorem inside_of_hasOwnKey (own : h.hasOwnKey id key = true) : h.Inside id key := by
  intro elements i kind index
  rw [hasOwnKey, kind] at own
  dsimp only at own
  rw [index] at own
  simpa using own

/-- The keys along which a walk goes are keys of elements or names. -/
theorem inside_of_mem_ownKeys (own : key ∈ h.ownKeys id) : h.Inside id key := by
  intro elements i kind index
  rw [ownKeys, kind] at own
  obtain ⟨j, range, rfl⟩ := List.mem_map.mp own
  have spelled := Text.readNatural?_of_lt index (show i < i + j + 1 by omega)
  rw [Text.readNatural?_toString (by omega)] at spelled
  rw [← Option.some.inj spelled]
  exact List.mem_range.mp range

theorem inside_of_name (named : Text.readIndex? key = none) : h.Inside id key := by
  intro elements i kind index
  rw [named] at index
  cases index

/-- Reading a property of any object after a store. -/
theorem getProperty_setProperty (inside : h.Inside id key) (v : Value) (x : ObjectId) (name : String) :
    (h.setProperty id key v).getProperty x name = h.getProperty x name ∨
      ((h.setProperty id key v).getProperty x name = v ∧
        h.getProperty x name = h.getProperty id key ∧
        Text.readIndex? name = Text.readIndex? key) := by
  rw [getProperty, getProperty, setProperty]
  by_cases here : x = id
  · subst here
    by_cases allocated : x < h.objects.size
    · rw [get_modify_self allocated]
      exact property_storeProperty inside v name
    · have missing := Nat.le_of_not_lt allocated
      rw [get_of_size_le _ missing, get_of_size_le _ (by rwa [size_modify])]
      exact .inl rfl
  · rw [get_modify_ne h here]
    exact .inl rfl

theorem getProperty_setProperty_self (inside : h.Inside id key) (v : Value) :
    (h.setProperty id key v).getProperty id key = v ∨
      ((h.setProperty id key v).getProperty id key).raw = (h.setProperty id key v).getProperty id key := by
  rw [getProperty, setProperty]
  by_cases allocated : id < h.objects.size
  · rw [get_modify_self allocated]
    exact property_storeProperty_self inside v
  · rw [get_of_size_le _ (by rw [size_modify]; exact Nat.le_of_not_lt allocated)]
    exact .inr rfl

/-- A store keeps the number of elements. -/
theorem Inside.setProperty (other : h.Inside x name) (inside : h.Inside id key) (v : Value) :
    (h.setProperty id key v).Inside x name := by
  intro elements i kind index
  rw [Heap.setProperty] at kind
  by_cases here : x = id
  · subst here
    by_cases allocated : x < h.objects.size
    · rw [get_modify_self allocated] at kind
      unfold HeapObject.storeProperty at kind
      split at kind
      · rename_i before same
        split at kind
        · rename_i j index'
          rw [setAt, if_pos (inside before j same index')] at kind
          cases kind
          rw [List.length_set]
          exact other before i same index
        · exact other elements i kind index
      · exact other elements i kind index
    · rw [get_of_size_le _ (by rw [size_modify]; exact Nat.le_of_not_lt allocated)] at kind
      cases kind
  · rw [get_modify_ne h here] at kind
    exact other elements i kind index

section Held

variable {c : Container} {values ws : List Value} {R : Value → Value → Prop}

/-- Reading a property after other values were put into a container: the property is as before, or it is
one of the values, read by its index, and then it was the one in its place. -/
theorem getProperty_setHeld (held : h.held? c id = some values) (pairs : List.Forall₂ R values ws)
    (x : ObjectId) (name : String) :
    (h.setHeld id ws).getProperty x name = h.getProperty x name ∨
      (R (h.getProperty x name) ((h.setHeld id ws).getProperty x name) ∧
        Text.readIndex? name ≠ none) := by
  rw [getProperty, getProperty]
  by_cases here : x = id
  · subst here
    rw [get_setHeld_self]
    rw [held?] at held
    cases kind : (h.get x).kind with
    | array elements =>
      rw [kind] at held
      cases c <;> cases held
      have kind' : ({ h.get x with kind := (h.get x).kind.withHeld ws } : HeapObject).kind =
          .array ws := by
        rw [kind]
        rfl
      rw [kind] at kind'
      rw [property_of_array kind', property_of_array kind, pairs.length_eq]
      split
      · exact .inl rfl
      · cases index : Text.readIndex? name with
        | none => exact .inl rfl
        | some i =>
          dsimp only
          by_cases inside : i < values.length
          · have inside' : i < ws.length := pairs.length_eq ▸ inside
            rw [List.getD_eq_getElem _ _ inside, List.getD_eq_getElem _ _ inside']
            exact .inr ⟨pairs.get inside inside', Option.some_ne_none i⟩
          · have beyond := Nat.le_of_not_lt inside
            rw [List.getD_eq_default _ _ beyond, List.getD_eq_default _ _ (pairs.length_eq ▸ beyond)]
            exact .inl rfl
    | _ =>
      left
      unfold HeapObject.property
      rw [kind]
      rfl
  · rw [setHeld, get_modify_ne h here]
    exact .inl rfl

theorem Inside.setHeld (inside : h.Inside x name) (held : h.held? c id = some values)
    (length : ws.length = values.length) : (h.setHeld id ws).Inside x name := by
  intro elements i kind index
  by_cases here : x = id
  · subst here
    rw [get_setHeld_self] at kind
    rw [held?] at held
    cases before : (h.get x).kind with
    | array old =>
      rw [before] at kind held
      cases c <;> cases held
      cases kind
      rw [length]
      exact inside values i before index
    | _ => rw [before] at kind; cases kind
  · rw [Heap.setHeld, get_modify_ne h here] at kind
    exact inside elements i kind index

end Held

end Heap

namespace Memory

variable {m m' : Memory} {v w r : Value} {id : ObjectId} {key : String}

/-- The value is the other one, or its known handle stands for it. -/
def Stands (m : Memory) (v r : Value) : Prop := m.Tracks v ∧ m.valueOf v = r

/-- The property shows a value: what it holds stands for that, or the property has a name, holds a shadow
and shows every literal. -/
def Shows (m : Memory) (id : ObjectId) (key : String) (r : Value) : Prop :=
  m.Stands (m.heap.getProperty id key) r ∨
    ((m.heap.getProperty id key).raw ≠ m.heap.getProperty id key ∧ r.object? = none ∧
      Text.readIndex? key = none)

/-- Handles stand for what they stood for, properties show what they showed, and no array is shorter. -/
structure Looks (m m' : Memory) : Prop where
  known : ∀ (i : Nat) x, m.shadow.wraps[i]? = some x → m'.shadow.wraps[i]? = some x
  shows : ∀ id key r, m.Shows id key r → m'.Shows id key r
  inside : ∀ id key, m.heap.Inside id key → m'.heap.Inside id key

theorem valueOf_of_bare (m : Memory) (bare : v.raw = v) : m.valueOf v = v := by
  cases v with
  | literal raw => rfl
  | object o => rfl
  | shadow handle identity raw => cases bare

theorem stands_of_bare (bare : v.raw = v) : m.Stands v v := ⟨.inl bare, m.valueOf_of_bare bare⟩

theorem stands_of_lookup {id : Identity} {raw : Literal} (known : m.shadow.lookup? v = some (id, raw)) :
    m.Stands v (.literal raw) :=
  ⟨.inr ⟨_, known⟩, ShadowState.valueOf_of_lookup known⟩

theorem Stands.of_known (h : m.Stands v r)
    (known : ∀ (i : Nat) x, m.shadow.wraps[i]? = some x → m'.shadow.wraps[i]? = some x) :
    m'.Stands v r := by
  obtain ⟨bare | ⟨⟨id, raw⟩, found⟩, rfl⟩ := h
  · rw [m.valueOf_of_bare bare]
    exact stands_of_bare bare
  · rw [show m.valueOf v = .literal raw from ShadowState.valueOf_of_lookup found]
    cases v with
    | literal l => cases found
    | object o => cases found
    | shadow handle identity l => exact stands_of_lookup (known _ _ found)

/-- What a property shows if it shows an object. -/
theorem Shows.object {child : ObjectId} (h : m.Shows id key (.object child)) :
    m.heap.getProperty id key = .object child := by
  rcases h with ⟨-, value⟩ | ⟨-, impossible, -⟩
  · exact MemoryM.objectOf?_eq_some (m := m) (congrArg Value.object? value)
  · cases impossible

instance : IsPreorder Memory Looks where
  refl _ := ⟨fun _ _ h => h, fun _ _ _ h => h, fun _ _ h => h⟩
  trans _ _ _ first second := ⟨fun i x h => second.known i x (first.known i x h),
    fun id key r h => second.shows id key r (first.shows id key r h),
    fun id key h => second.inside id key (first.inside id key h)⟩

theorem looks_of_heap (heap : m'.heap = m.heap)
    (known : ∀ (i : Nat) x, m.shadow.wraps[i]? = some x → m'.shadow.wraps[i]? = some x) :
    m.Looks m' where
  known := known
  shows id key r h := by
    unfold Shows at h ⊢
    rw [heap]
    exact h.imp_left fun stands => stands.of_known known
  inside := by
    rw [heap]
    exact fun _ _ h => h

/-- A property may be stored again, and one that holds a bare literal may get a shadow for it. -/
theorem looks_setProperty (inside : m.heap.Inside id key)
    (fits : w = m.heap.getProperty id key ∨
      ∃ raw, m.heap.getProperty id key = .literal raw ∧ m.Stands w (.literal raw)) :
    m.Looks { m with heap := m.heap.setProperty id key w } where
  known _ _ h := h
  inside _ _ h := h.setProperty inside w
  shows x name r h := by
    unfold Shows at h ⊢
    show Stands m _ r ∨ _
    rcases Heap.getProperty_setProperty inside w x name with same | ⟨stored, same, -⟩
    · rw [same]
      exact h
    · rw [stored]
      rw [same] at h
      rcases fits with rfl | ⟨raw, bare, stands⟩
      · exact h
      · rw [bare] at h
        rcases h with ⟨-, rfl⟩ | ⟨shadow, -⟩
        · exact .inl stands
        · exact absurd rfl shadow

end Memory

namespace MemoryM

variable {m : Memory} {v r : Value}

/-- A held value goes on standing for what it stood for. -/
theorem stands_hold (grain : Grain) (stands : m.Stands v r) :
    (hold grain v m).2.Stands (hold grain v m).1 r := by
  have known := (spreads_hold grain v m).known
  cases grain with
  | imprecise =>
    obtain ⟨-, rfl⟩ := stands
    have bare : (hold .imprecise v m).1 = m.valueOf v := rfl
    rw [bare]
    exact stands_of_bare (m.shadow.raw_valueOf v)
  | precise =>
    cases v with
    | literal raw =>
      obtain ⟨-, rfl⟩ := stands
      rcases skips : m.shadow.frame.callType.skipsWrapping
      · obtain ⟨handle, wrapped, found⟩ := lookup_shadow m.shadow.mint.1 raw
          (m := { m with shadow := m.shadow.mint.2 }) skips
        have wrapped : (hold .precise (.literal raw) m).1 = .shadow handle m.shadow.mint.1 raw := wrapped
        rw [wrapped]
        exact stands_of_lookup found
      · have same : (hold .precise (.literal raw) m).1 = .literal raw :=
          congrArg Prod.fst (shadow_of_skips (m := { m with shadow := m.shadow.mint.2 }) skips _ raw)
        rw [same]
        exact stands_of_bare rfl
    | object id => exact stands.of_known known
    | shadow handle identity raw => exact stands.of_known known

theorem stands_mapM_hold (grain : Grain) (values : List Value) (m : Memory) :
    List.Forall₂ (fun v w => ∀ r, m.Stands v r → (values.mapM (hold grain) m).2.Stands w r) values
      (values.mapM (hold grain) m).1 := by
  induction values generalizing m with
  | nil => exact .nil
  | cons v rest ih =>
    rw [List.mapM_cons]
    have first := (spreads_hold grain v m).known
    have later := (Within.mapM (spreads_hold grain) rest (hold grain v m).2).known
    exact .cons (fun r stands => (stands_hold grain stands).of_known later)
      ((ih (hold grain v m).2).imp fun _ _ keeps r stands => keeps r (stands.of_known first))

/-- Other values that stand for the same may be put into a container. -/
theorem looks_setHeld {c : Container} {id : ObjectId} {values ws : List Value}
    (held : m.heap.held? c id = some values) {m' : Memory} (heap : m'.heap = m.heap)
    (known : ∀ (i : Nat) x, m.shadow.wraps[i]? = some x → m'.shadow.wraps[i]? = some x)
    (pairs : List.Forall₂ (fun v w => ∀ r, m.Stands v r → m'.Stands w r) values ws) :
    m.Looks { m' with heap := m'.heap.setHeld id ws } where
  known := known
  inside x name inside := by
    rw [heap]
    exact inside.setHeld held pairs.length_eq.symm
  shows x name r shows := by
    unfold Shows at shows ⊢
    rw [heap]
    rcases Heap.getProperty_setHeld held pairs x name with same | ⟨stands, index⟩
    · dsimp only
      rw [same]
      exact shows.imp_left fun stands => stands.of_known known
    · exact .inl (stands r (shows.resolve_right fun ⟨_, _, named⟩ => index named))

/-- Settling a container changes what it holds, and nothing that properties show. -/
theorem looks_settle (policy : Policy) (v : Value) : Within Looks (settle policy v) := by
  intro m
  rcases settle_cases policy v m with ⟨c, grain, id, values, -, -, held, settled⟩ | ⟨same, -⟩
  · have issues := Within.mapM (issues_hold grain) values m
    have spreads := Within.mapM (spreads_hold grain) values m
    rw [settled]
    exact looks_setHeld held issues.heap spreads.known (stands_mapM_hold grain values m)
  · rw [same]
    exact refl_of Looks m

/-- Wrapping a value changes nothing that properties show. -/
theorem looks_wrap (levels : Levels) (v : Value) : Within Looks (wrap levels v) := by
  intro m
  have settled (policy : Policy) : m.Looks (discard (settle policy v m).2).2 :=
    trans_of Looks (looks_settle policy v m)
      (looks_of_heap (issues_discard _).heap (stacks_discard _).known)
  cases v with
  | literal raw =>
    refine looks_of_heap ?_ (stacks_wrap levels (.literal raw) m).known
    exact ((issues_shadow _ raw _).heap).trans (issues_takeIdentity m).heap
  | object id => exact settled _
  | shadow handle identity raw => exact settled _

end MemoryM

end ShadowTaint
