import Mathlib.Data.List.Perm.Subperm
import ShadowTaint.Policy.Trees
import ShadowTaint.Proofs.Heap
/-!
# What a walk over plain objects visits

Before an external call the shadows are taken off everything that an argument reaches. The walk that
does so goes down into every object once, and remembers the objects where it has been. This file says
what the walk visits, apart from what it does there: every property of every object that is reached
and holds no object.

## Main definitions

- `Heap.named?`, `Heap.link?`: the value, and the object, that an object has under a name.
- `Heap.Reaches`: one object is reached from another one through properties.
- `Heap.Visits`: a walk, with the properties it comes to and the objects it remembers.
- `Heap.Alike`: heaps that differ in values of properties only, and not in objects among them.

## Main statements

- `Heap.Visits.mem_iff`: a walk comes to exactly the properties of what is reached.
-/

namespace ShadowTaint

namespace Heap

/-- The value that an object has under a name. -/
def named? (h : Heap) (id : ObjectId) (key : String) : Option Value :=
  (h.get id).properties.get? key

/-- The object that an object has under a name. -/
def link? (h : Heap) (id : ObjectId) (key : String) : Option ObjectId :=
  (h.named? id key).bind Value.object?

/-- The name is none of those that walks leave out. -/
def Visible (key : String) : Prop := hiddenProperties.contains key = false

/-- The object is on the heap, and it is neither a container nor a function nor one of the objects
that every heap has. -/
def IsPlain (h : Heap) (id : ObjectId) : Prop :=
  id < h.objects.size ∧ ∃ name, (h.get id).kind = .plain name

section Plain

variable {h : Heap} {id : ObjectId} {key : String} {v : Value}

theorem getProperty_of_plain (plain : h.IsPlain id) (key : String) :
    h.getProperty id key = (h.named? id key).getD .undefined := by
  obtain ⟨-, name, kind⟩ := plain
  rw [getProperty, HeapObject.property, kind]
  rfl

theorem hasOwnKey_of_plain (plain : h.IsPlain id) (key : String) :
    h.hasOwnKey id key = (h.named? id key).isSome := by
  obtain ⟨-, name, kind⟩ := plain
  rw [hasOwnKey, kind]
  rfl

theorem ownKeys_of_plain (plain : h.IsPlain id) :
    h.ownKeys id = ((h.get id).properties.entries.map (·.1)).filter
      fun key => !hiddenProperties.contains key := by
  obtain ⟨-, name, kind⟩ := plain
  rw [ownKeys, kind, List.filter_map]
  rfl

theorem mem_ownKeys_iff (plain : h.IsPlain id) :
    key ∈ h.ownKeys id ↔ Visible key ∧ (h.named? id key).isSome = true := by
  rw [ownKeys_of_plain plain, List.mem_filter, Bool.not_eq_true', named?, Table.get?,
    Table.isSome_find_iff, and_comm]
  rfl

theorem get_setProperty (plain : h.IsPlain id) (key : String) (v : Value) (x : ObjectId) :
    (h.setProperty id key v).get x = if x = id
      then { h.get id with properties := (h.get id).properties.insert key v } else h.get x := by
  obtain ⟨allocated, name, kind⟩ := plain
  split
  · rename_i same
    rw [same, setProperty, get_modify_self allocated, HeapObject.storeProperty]
    simp only [kind]
  · rename_i other
    exact get_modify_ne h other _

theorem named?_setProperty (plain : h.IsPlain id) (key : String) (v : Value) (x : ObjectId)
    (other : String) : (h.setProperty id key v).named? x other =
      if x = id ∧ key = other then some v else h.named? x other := by
  rw [named?, get_setProperty plain]
  by_cases same : x = id
  · rw [if_pos same]
    show ((h.get id).properties.insert key v).get? other = _
    rw [Table.get?_insert, named?, same]
    by_cases name : key = other
    · rw [if_pos name, if_pos ⟨rfl, name⟩]
    · rw [if_neg name, if_neg fun both => name both.2]
  · rw [if_neg same, if_neg fun both => same both.1]
    rfl

end Plain

/-- Objects are the same but for the values of their properties, and no property that holds an object
is different. -/
structure Alike (h h' : Heap) : Prop where
  size : h'.objects.size = h.objects.size
  kind : ∀ x, (h'.get x).kind = (h.get x).kind
  tag : ∀ x, (h'.get x).importTag = (h.get x).importTag
  keys : ∀ x, h'.ownKeys x = h.ownKeys x
  link : ∀ x key, h'.link? x key = h.link? x key

namespace Alike

variable {h h' h'' : Heap} {id : ObjectId} {key : String} {v w : Value}

theorem refl (h : Heap) : h.Alike h := ⟨rfl, fun _ => rfl, fun _ => rfl, fun _ => rfl, fun _ _ => rfl⟩

theorem trans (first : h.Alike h') (second : h'.Alike h'') : h.Alike h'' where
  size := second.size.trans first.size
  kind x := (second.kind x).trans (first.kind x)
  tag x := (second.tag x).trans (first.tag x)
  keys x := (second.keys x).trans (first.keys x)
  link x key := (second.link x key).trans (first.link x key)

theorem plain (alike : h.Alike h') (plain : h.IsPlain id) : h'.IsPlain id := by
  obtain ⟨allocated, name, kind⟩ := plain
  exact ⟨by rwa [alike.size], name, by rw [alike.kind, kind]⟩

/-- The value of a property may be replaced by another one that is the same object, or none. -/
theorem setProperty (plain : h.IsPlain id) (named : h.named? id key = some v)
    (same : w.object? = v.object?) : h.Alike (h.setProperty id key w) where
  size := size_modify h id _
  kind x := by
    rw [get_setProperty plain]
    split
    · rename_i at'
      rw [at']
    · rfl
  tag x := by
    rw [get_setProperty plain]
    split
    · rename_i at'
      rw [at']
    · rfl
  keys x := by
    have kept : ((h.get id).properties.insert key w).entries.map (·.1) =
        (h.get id).properties.entries.map (·.1) :=
      Table.keys_store (by rw [← Table.get?, ← named?, named]; rfl) w
    simp only [ownKeys, dataProperties, get_setProperty plain]
    by_cases at' : x = id
    · obtain ⟨-, name, kind⟩ := plain
      rw [if_pos at', at', kind]
      show List.map _ (List.filter _ _) = List.map _ (List.filter _ _)
      have split (l : List (String × Value)) :
          (l.filter fun p => !hiddenProperties.contains p.1).map (·.1) =
            (l.map (·.1)).filter fun key => !hiddenProperties.contains key := by
        rw [List.filter_map]
        rfl
      rw [split, split, kept]
    · rw [if_neg at']
  link x other := by
    rw [link?, link?, named?_setProperty plain]
    split
    · rename_i at'
      rw [at'.1, ← at'.2, named]
      exact same
    · rfl

end Alike

/-- An object is reached from another one through properties that walks do not leave out. -/
inductive Reaches (h : Heap) (id : ObjectId) : ObjectId → Prop where
  | self : Reaches h id id
  | step {x y : ObjectId} {key : String} (reaches : Reaches h id x) (visible : Visible key)
      (link : h.link? x key = some y) : Reaches h id y

/-- What the object under a name reaches, the object reaches. -/
theorem Reaches.through {h : Heap} {id child x : ObjectId} {key : String} (visible : Visible key)
    (link : h.link? id key = some child) (reaches : h.Reaches child x) : h.Reaches id x := by
  induction reaches with
  | self => exact .step .self visible link
  | step _ visible' link' ih => exact .step ih visible' link'

/-- A walk over some properties of an object, and over everything below them that it has not visited
before: it comes to properties that hold no object, one after the other, and remembers the objects
that it visits. -/
inductive Visits (h : Heap) : ObjectId → List String → List ObjectId →
    List (ObjectId × String) → List ObjectId → Prop where
  | done (id : ObjectId) (visited : List ObjectId) : Visits h id [] visited [] visited
  | value {id : ObjectId} {key : String} {keys : List String} {visited visited' : List ObjectId}
      {slots : List (ObjectId × String)} (value : h.link? id key = none)
      (rest : Visits h id keys visited slots visited') :
      Visits h id (key :: keys) visited ((id, key) :: slots) visited'
  | seen {id child : ObjectId} {key : String} {keys : List String}
      {visited visited' : List ObjectId} {slots : List (ObjectId × String)}
      (link : h.link? id key = some child) (seen : child ∈ visited)
      (rest : Visits h id keys visited slots visited') :
      Visits h id (key :: keys) visited slots visited'
  | child {id child : ObjectId} {key : String} {keys : List String}
      {visited visited' visited'' : List ObjectId} {below slots : List (ObjectId × String)}
      (link : h.link? id key = some child) (fresh : child ∉ visited)
      (inside : Visits h child (h.ownKeys child) (child :: visited) below visited')
      (rest : Visits h id keys visited' slots visited'') :
      Visits h id (key :: keys) visited (below ++ slots) visited''

namespace Visits

variable {h : Heap} {id : ObjectId} {keys : List String} {visited visited' : List ObjectId}
  {slots : List (ObjectId × String)}

/-- Visited objects are remembered, and every object is remembered once. -/
theorem remembers (visits : h.Visits id keys visited slots visited') :
    visited ⊆ visited' ∧ (visited.Nodup → visited'.Nodup) ∧ visited.length ≤ visited'.length := by
  induction visits with
  | done => exact ⟨List.Subset.refl _, fun once => once, Nat.le_refl _⟩
  | value _ _ ih => exact ih
  | seen _ _ _ ih => exact ih
  | child _ fresh _ _ inside rest =>
    refine ⟨fun x hx => rest.1 (inside.1 (List.mem_cons_of_mem _ hx)), fun once => ?_, ?_⟩
    · exact rest.2.1 (inside.2.1 (List.nodup_cons.mpr ⟨fresh, once⟩))
    · exact Nat.le_trans (Nat.le_of_succ_le inside.2.2) rest.2.2

/-- A walk stays within what its object reaches, and comes to no property that holds an object. -/
theorem sound (visits : h.Visits id keys visited slots visited')
    (plain : ∀ x, h.Reaches id x → h.IsPlain x) (own : ∀ key ∈ keys, key ∈ h.ownKeys id) :
    (∀ p ∈ slots, h.Reaches id p.1 ∧ p.2 ∈ h.ownKeys p.1 ∧ h.link? p.1 p.2 = none) ∧
      ∀ x ∈ visited', x ∈ visited ∨ h.Reaches id x := by
  induction visits with
  | done => exact ⟨fun _ hp => (nomatch hp), fun _ hx => .inl hx⟩
  | value value _ ih =>
    obtain ⟨sound, within⟩ := ih plain fun key hkey => own key (List.mem_cons_of_mem _ hkey)
    refine ⟨fun p hp => ?_, within⟩
    rcases List.mem_cons.mp hp with rfl | hp
    · exact ⟨.self, own _ List.mem_cons_self, value⟩
    · exact sound p hp
  | seen _ _ _ ih => exact ih plain fun key hkey => own key (List.mem_cons_of_mem _ hkey)
  | child link _ _ _ inside rest =>
    have visible := ((mem_ownKeys_iff (plain _ .self)).mp (own _ List.mem_cons_self)).1
    obtain ⟨sound, within⟩ := inside (fun x hx => plain x (hx.through visible link)) fun _ h => h
    obtain ⟨sound', within'⟩ := rest plain fun key hkey => own key (List.mem_cons_of_mem _ hkey)
    refine ⟨fun p hp => ?_, fun x hx => ?_⟩
    · rcases List.mem_append.mp hp with hp | hp
      · exact ⟨(sound p hp).1.through visible link, (sound p hp).2⟩
      · exact sound' p hp
    · rcases within' x hx with hx | reached
      · rcases within x hx with hx | reached
        · rcases List.mem_cons.mp hx with rfl | hx
          · exact .inr (.step .self visible link)
          · exact .inl hx
        · exact .inr (reached.through visible link)
      · exact .inr reached

/-- A walk has come to a property, or it remembers the object that the property holds. -/
def Covers (h : Heap) (slots : List (ObjectId × String)) (visited : List ObjectId) (x : ObjectId)
    (key : String) : Prop :=
  (h.link? x key = none → (x, key) ∈ slots) ∧ ∀ y, h.link? x key = some y → y ∈ visited

theorem Covers.mono {slots' : List (ObjectId × String)} {x : ObjectId} {key : String}
    (covers : Covers h slots visited x key) (more : slots ⊆ slots') (later : visited ⊆ visited') :
    Covers h slots' visited' x key :=
  ⟨fun value => more (covers.1 value), fun y link => later (covers.2 y link)⟩

/-- A walk covers the properties it starts with, and those of every object that it visits. -/
theorem covers (visits : h.Visits id keys visited slots visited') :
    (∀ key ∈ keys, Covers h slots visited' id key) ∧
      ∀ x ∈ visited', x ∉ visited → ∀ key ∈ h.ownKeys x, Covers h slots visited' x key := by
  -- on the visit: a key is covered when it is visited, and stays so when more is visited
  induction visits with
  | done => exact ⟨fun _ hkey => (nomatch hkey), fun _ hx fresh => absurd hx fresh⟩
  | value value _ ih =>
    refine ⟨fun key hkey => ?_, fun x hx fresh key hkey =>
      (ih.2 x hx fresh key hkey).mono (List.subset_cons_self _ _) (List.Subset.refl _)⟩
    rcases List.mem_cons.mp hkey with rfl | hkey
    · refine ⟨fun _ => List.mem_cons_self, fun y link => ?_⟩
      rw [value] at link
      cases link
    · exact (ih.1 key hkey).mono (List.subset_cons_self _ _) (List.Subset.refl _)
  | seen link seen rest ih =>
    refine ⟨fun key hkey => ?_, ih.2⟩
    rcases List.mem_cons.mp hkey with rfl | hkey
    · refine ⟨fun value => ?_, fun y link' => ?_⟩
      · rw [link] at value
        cases value
      · rw [link] at link'
        cases link'
        exact rest.remembers.1 seen
    · exact ih.1 key hkey
  | @child _ child _ _ visited visited' _ _ _ link _ inside rest ihInside ihRest =>
    have later := rest.remembers.1
    refine ⟨fun key hkey => ?_, fun x hx fresh key hkey => ?_⟩
    · rcases List.mem_cons.mp hkey with rfl | hkey
      · refine ⟨fun value => ?_, fun y link' => ?_⟩
        · rw [link] at value
          cases value
        · rw [link] at link'
          cases link'
          exact later (inside.remembers.1 List.mem_cons_self)
      · exact (ihRest.1 key hkey).mono (List.subset_append_right _ _) (List.Subset.refl _)
    · -- the object is the child, it was visited below the child, or later
      by_cases visited : x ∈ visited'
      · by_cases same : x = child
        · rw [same] at hkey ⊢
          exact (ihInside.1 key hkey).mono (List.subset_append_left _ _) later
        · have new : x ∉ child :: _ := fun hx => (List.mem_cons.mp hx).elim same fresh
          exact (ihInside.2 x visited new key hkey).mono (List.subset_append_left _ _) later
      · exact (ihRest.2 x hx visited key hkey).mono (List.subset_append_right _ _)
          (List.Subset.refl _)

/-- A walk that starts at an object comes to exactly the properties of what the object reaches that
hold no object. -/
theorem mem_iff (visits : h.Visits id (h.ownKeys id) [id] slots visited')
    (plain : ∀ x, h.Reaches id x → h.IsPlain x) (x : ObjectId) (key : String) :
    (x, key) ∈ slots ↔ h.Reaches id x ∧ key ∈ h.ownKeys x ∧ h.link? x key = none := by
  refine ⟨(visits.sound plain fun _ h => h).1 (x, key), fun ⟨reaches, own, valued⟩ => ?_⟩
  have covered (y : ObjectId) (hy : y ∈ visited') : ∀ key ∈ h.ownKeys y,
      Covers h slots visited' y key := by
    by_cases start : y ∈ [id]
    · rw [List.mem_singleton.mp start]
      exact visits.covers.1
    · exact visits.covers.2 y hy start
  have reached (y : ObjectId) (reaches : h.Reaches id y) : y ∈ visited' := by
    induction reaches with
    | self => exact visits.remembers.1 List.mem_cons_self
    | @step y z key reaches visible link ih =>
      have own : key ∈ h.ownKeys y := by
        rw [mem_ownKeys_iff (plain y reaches)]
        refine ⟨visible, ?_⟩
        obtain ⟨v, named, -⟩ := Option.bind_eq_some_iff.mp link
        rw [named]
        rfl
      exact (covered y ih key own).2 z link
  exact (covered x (reached x reaches) key own).1 valued

end Visits

end Heap

end ShadowTaint
