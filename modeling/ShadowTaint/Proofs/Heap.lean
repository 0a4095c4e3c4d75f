import Mathlib.Order.Defs.Unbundled
import ShadowTaint.Native.Invoke
import ShadowTaint.Policy.Kind
/-!
# How heaps change

Objects are added to a heap and never removed, and an object stays what it is: an array stays an
array, a function keeps its implementation and the name that it has. This file states that as a
preorder, and shows that every operation of a heap respects it. It also has a way to speak about all
values that lie on a heap, and shows that no operation puts a value there which was not there before
or given to it.

## Main definitions

- `Heap.Evolves`: one heap may have come out of another one.
- `Heap.Holding`: all values on a heap have a property.

## Main statements

- `ValueKind.of_evolves`: a value stays in its class as long as its tag stays.
- `Heap.Evolves.function?`: a function stays what it is.
-/

namespace ShadowTaint

/-- What a kind of object may turn into. Contents change freely, and a function without a name may
be given one. -/
def ObjectKind.Becomes : ObjectKind → ObjectKind → Prop
  | .plain name, .plain name' => name' = name
  | .array _, .array _ => True
  | .map _, .map _ => True
  | .set _, .set _ => True
  | .function f, .function f' =>
    f'.native = f.native ∧ f'.builtin = f.builtin ∧ (f.name ≠ "" → f'.name = f.name)
  | .global, .global => True
  | .objectPrototype, .objectPrototype => True
  | .json, .json => True
  | _, _ => False

theorem ObjectKind.Becomes.refl (k : ObjectKind) : k.Becomes k := by
  cases k <;> simp [Becomes]

theorem ObjectKind.Becomes.trans {k₁ k₂ k₃ : ObjectKind} (h₁ : k₁.Becomes k₂)
    (h₂ : k₂.Becomes k₃) : k₁.Becomes k₃ := by
  cases k₁ <;> cases k₂ <;> simp only [Becomes] at h₁ <;> cases k₃ <;> simp only [Becomes] at h₂ ⊢
  case plain.plain.plain => exact h₂.trans h₁
  case function.function.function =>
    obtain ⟨native₁, builtin₁, name₁⟩ := h₁
    obtain ⟨native₂, builtin₂, name₂⟩ := h₂
    refine ⟨native₂.trans native₁, builtin₂.trans builtin₁, fun named => ?_⟩
    rw [← name₁ named]
    exact name₂ (by rwa [name₁ named])

namespace Heap

/-- The second heap has the objects of the first one, which are of the same kind still, and maybe
more. -/
structure Evolves (h h' : Heap) : Prop where
  size : h.objects.size ≤ h'.objects.size
  kind : ∀ id < h.objects.size, (h.get id).kind.Becomes (h'.get id).kind

namespace Evolves

variable {h h' h'' : Heap}

theorem refl (h : Heap) : h.Evolves h where
  size := Nat.le_refl _
  kind _ _ := .refl _

theorem trans (first : h.Evolves h') (second : h'.Evolves h'') : h.Evolves h'' where
  size := Nat.le_trans first.size second.size
  kind id hid := (first.kind id hid).trans (second.kind id (Nat.lt_of_lt_of_le hid first.size))

instance : IsPreorder Heap Evolves where
  refl := refl
  trans _ _ _ := trans

end Evolves

variable (h : Heap)

@[simp] theorem size_modify (id : ObjectId) (f : HeapObject → HeapObject) :
    (h.modify id f).objects.size = h.objects.size := by
  simp [modify]

theorem get_of_size_le {id : ObjectId} (hid : h.objects.size ≤ id) : h.get id = default := by
  simp [get, Array.getElem?_eq_none hid]

theorem get_alloc_of_lt (o : HeapObject) {id : ObjectId} (hid : id < h.objects.size) :
    (h.alloc o).2.get id = h.get id := by
  simp [alloc, get, Array.getElem?_push, Nat.ne_of_lt hid]

theorem get_alloc_self (o : HeapObject) : (h.alloc o).2.get h.objects.size = o := by
  simp [alloc, get]

theorem get_alloc_of_gt (o : HeapObject) {id : ObjectId} (hid : h.objects.size < id) :
    (h.alloc o).2.get id = default := by
  apply get_of_size_le
  simp only [alloc, Array.size_push]
  omega

theorem evolves_modify {id : ObjectId} {f : HeapObject → HeapObject}
    (hf : (h.get id).kind.Becomes (f (h.get id)).kind) : h.Evolves (h.modify id f) where
  size := Nat.le_of_eq (h.size_modify id f).symm
  kind other hother := by
    by_cases same : other = id
    · subst same
      rwa [get_modify_self hother]
    · rw [get_modify_ne h same]
      exact .refl _

theorem evolves_alloc (o : HeapObject) : h.Evolves (h.alloc o).2 where
  size := by simp [alloc]
  kind id hid := by
    rw [get_alloc_of_lt h o hid]
    exact .refl _

theorem evolves_allocKind (kind : ObjectKind) : h.Evolves (h.allocKind kind).2 :=
  h.evolves_alloc { kind }

theorem evolves_setKind {id : ObjectId} {kind : ObjectKind} (hk : (h.get id).kind.Becomes kind) :
    h.Evolves (h.setKind id kind) :=
  h.evolves_modify hk

theorem evolves_setImportTag (id : ObjectId) (tag : ImportTag) :
    h.Evolves (h.setImportTag id tag) :=
  h.evolves_modify (.refl _)

theorem becomes_storeProperty (o : HeapObject) (key : String) (v : Value) :
    o.kind.Becomes (HeapObject.storeProperty o key v).kind := by
  unfold HeapObject.storeProperty
  split
  · rename_i elements hkind
    split
    · rw [hkind]
      trivial
    · exact .refl _
  · exact .refl _

theorem evolves_setProperty (id : ObjectId) (key : String) (v : Value) :
    h.Evolves (h.setProperty id key v) :=
  h.evolves_modify (becomes_storeProperty _ key v)

theorem evolves_setElements (v : Value) (elements : List Value) :
    h.Evolves (h.setElements v elements) := by
  unfold setElements
  split
  · exact .refl h
  · split
    · rename_i hkind
      refine h.evolves_setKind ?_
      rw [hkind]
      trivial
    · exact .refl h

/-- The function that a value is stays what it is, and keeps the name that it has. -/
theorem Evolves.function? {h h' : Heap} (ev : h.Evolves h') {v : Value} {f : Function}
    (hf : h.function? v = some f) : ∃ f', h'.function? v = some f' ∧ f'.native = f.native ∧
      f'.builtin = f.builtin ∧ (f.name ≠ "" → f'.name = f.name) := by
  unfold Heap.function? at hf ⊢
  split at hf
  · cases hf
  · rename_i id hid
    have allocated : id < h.objects.size := by
      refine Nat.lt_of_not_le fun beyond => ?_
      rw [get_of_size_le h beyond] at hf
      cases hf
    have kind := ev.kind id allocated
    split at hf
    · rename_i hkind
      cases hf
      rw [hkind] at kind
      rcases hk : (h'.get id).kind <;> rw [hk] at kind <;> simp only [ObjectKind.Becomes] at kind
      exact ⟨_, rfl, kind⟩
    · cases hf

end Heap

/-- A value that is no number of a missing object stays in its class as long as its tag stays. -/
theorem ValueKind.of_evolves {h h' : Heap} (ev : h.Evolves h') {v : Value}
    (allocated : ∀ id, v.object? = some id → id < h.objects.size)
    (tag : h'.importTag? v = h.importTag? v) : ValueKind.of h' v = ValueKind.of h v := by
  cases v with
  | literal l => cases l <;> rfl
  | shadow handle identity l => cases l <;> rfl
  | object id =>
    have kind := ev.kind id (allocated id rfl)
    have imported : ofImport? h' (.object id) = ofImport? h (.object id) := by
      rw [ofImport?, ofImport?, tag]
    simp only [ValueKind.of, Value.raw, Heap.constructorName, imported]
    cases hk : (h.get id).kind <;> cases hk' : (h'.get id).kind <;> rw [hk, hk'] at kind <;>
      simp_all [ObjectKind.Becomes]

section Holding

variable {P Q : Value → Prop}

/-- All values that an object holds because of its kind have the property. -/
def ObjectKind.Holding (P : Value → Prop) : ObjectKind → Prop
  | .array elements => ∀ v ∈ elements, P v
  | .map entries => ∀ e ∈ entries, P e.1 ∧ P e.2
  | .set members => ∀ v ∈ members, P v
  | _ => True

/-- All values that an object holds have the property. -/
structure HeapObject.Holding (P : Value → Prop) (o : HeapObject) : Prop where
  kind : o.kind.Holding P
  properties : ∀ e ∈ o.properties.entries, P e.2

/-- All values that lie on the heap have the property: the values of properties, the elements of
arrays, the keys and values of maps and the members of sets. -/
def Heap.Holding (P : Value → Prop) (h : Heap) : Prop := ∀ id, HeapObject.Holding P (h.get id)

theorem ObjectKind.Holding.mono {k : ObjectKind} (hk : k.Holding P) (imp : ∀ v, P v → Q v) :
    k.Holding Q := by
  cases k with
  | array elements => exact fun v hv => imp v (hk v hv)
  | map entries => exact fun e he => ⟨imp _ (hk e he).1, imp _ (hk e he).2⟩
  | set members => exact fun v hv => imp v (hk v hv)
  | _ => trivial

theorem HeapObject.Holding.mono {o : HeapObject} (ho : o.Holding P) (imp : ∀ v, P v → Q v) :
    o.Holding Q :=
  ⟨ho.kind.mono imp, fun e he => imp _ (ho.properties e he)⟩

theorem HeapObject.holding_empty {kind : ObjectKind} (hk : kind.Holding P) :
    HeapObject.Holding P { kind } :=
  ⟨hk, fun _ he => nomatch he⟩

/-- What an object answers to a property key is undefined, a number, or a value that it holds. -/
theorem HeapObject.Holding.property {o : HeapObject} (ho : o.Holding P)
    (bare : ∀ v : Value, v.raw = v → P v) (key : String) : P (Heap.HeapObject.property o key) := by
  have named : P ((o.properties.get? key).getD .undefined) := by
    cases hp : o.properties.get? key with
    | none => exact bare _ rfl
    | some v => exact ho.properties _ (Table.get?_eq_some_iff.mp hp)
  unfold Heap.HeapObject.property
  split
  · rename_i elements hkind
    split
    · exact bare _ rfl
    · split
      · rename_i i _
        have held := ho.kind
        rw [hkind] at held
        rw [List.getD_eq_getElem?_getD]
        rcases hi : elements[i]? with _ | v
        · exact bare _ rfl
        · exact held v (List.mem_of_getElem? hi)
      · exact named
  · exact named

theorem HeapObject.Holding.storeProperty {o : HeapObject} (ho : o.Holding P)
    (bare : ∀ v : Value, v.raw = v → P v) (key : String) {v : Value} (hv : P v) :
    (Heap.HeapObject.storeProperty o key v).Holding P := by
  have named : HeapObject.Holding P { o with properties := o.properties.insert key v } := by
    refine ⟨ho.kind, fun e he => ?_⟩
    rcases Table.mem_store he with rfl | he
    · exact hv
    · exact ho.properties e he
  unfold Heap.HeapObject.storeProperty
  split
  · rename_i elements hkind
    have held := ho.kind
    rw [hkind] at held
    split
    · refine ⟨fun w hw => ?_, ho.properties⟩
      rw [Heap.setAt] at hw
      split at hw
      · rcases List.mem_or_eq_of_mem_set hw with hw | rfl
        · exact held w hw
        · exact hv
      · rcases List.mem_append.mp hw with hw | hw
        · rcases List.mem_append.mp hw with hw | hw
          · exact held w hw
          · rw [List.eq_of_mem_replicate hw]
            exact bare _ rfl
        · rw [List.mem_singleton.mp hw]
          exact hv
    · exact named
  · exact named

namespace Heap.Holding

variable {h : Heap}

theorem mono (hh : h.Holding P) (imp : ∀ v, P v → Q v) : h.Holding Q :=
  fun id => (hh id).mono imp

theorem modify (hh : h.Holding P) {id : ObjectId} {f : HeapObject → HeapObject}
    (hf : (h.get id).Holding P → (f (h.get id)).Holding P) : (h.modify id f).Holding P := by
  intro other
  by_cases same : other = id
  · subst same
    by_cases hid : other < h.objects.size
    · rw [get_modify_self hid]
      exact hf (hh other)
    · rw [get_of_size_le _ (by rw [size_modify]; exact Nat.le_of_not_lt hid)]
      exact HeapObject.holding_empty trivial
  · rw [get_modify_ne h same]
    exact hh other

theorem setKind (hh : h.Holding P) (id : ObjectId) {kind : ObjectKind} (hk : kind.Holding P) :
    (h.setKind id kind).Holding P :=
  hh.modify fun ho => ⟨hk, ho.properties⟩

theorem setProperty (hh : h.Holding P) (bare : ∀ v : Value, v.raw = v → P v) (id : ObjectId)
    (key : String) {v : Value} (hv : P v) : (h.setProperty id key v).Holding P :=
  hh.modify fun ho => ho.storeProperty bare key hv

theorem setImportTag (hh : h.Holding P) (id : ObjectId) (tag : ImportTag) :
    (h.setImportTag id tag).Holding P :=
  hh.modify fun ho => ⟨ho.kind, ho.properties⟩

theorem setElements (hh : h.Holding P) (v : Value) {elements : List Value}
    (he : ∀ e ∈ elements, P e) : (h.setElements v elements).Holding P := by
  unfold Heap.setElements
  split
  · exact hh
  · split
    · exact hh.setKind _ he
    · exact hh

theorem allocKind (hh : h.Holding P) {kind : ObjectKind} (hk : kind.Holding P) :
    (h.allocKind kind).2.Holding P := by
  intro id
  change ((h.alloc { kind }).2.get id).Holding P
  rcases Nat.lt_trichotomy id h.objects.size with hid | rfl | hid
  · rw [get_alloc_of_lt h _ hid]
    exact hh id
  · rw [get_alloc_self]
    exact HeapObject.holding_empty hk
  · rw [get_alloc_of_gt h _ hid]
    exact HeapObject.holding_empty trivial

theorem elements? (hh : h.Holding P) {v : Value} {elements : List Value}
    (he : h.elements? v = some elements) : ∀ e ∈ elements, P e := by
  unfold Heap.elements? at he
  split at he
  · cases he
  · split at he
    · rename_i id _ _ _ hkind
      cases he
      have held := (hh id).kind
      rwa [hkind] at held
    · cases he

theorem mapEntries? (hh : h.Holding P) {v : Value} {id : ObjectId}
    {entries : List (Value × Value)} (he : h.mapEntries? v = some (id, entries)) :
    ∀ e ∈ entries, P e.1 ∧ P e.2 := by
  unfold Heap.mapEntries? at he
  split at he
  · cases he
  · split at he
    · rename_i other _ hkind
      cases he
      have held := (hh id).kind
      rwa [hkind] at held
    · cases he

theorem setMembers? (hh : h.Holding P) {v : Value} {id : ObjectId} {members : List Value}
    (he : h.setMembers? v = some (id, members)) : ∀ w ∈ members, P w := by
  unfold Heap.setMembers? at he
  split at he
  · cases he
  · split at he
    · rename_i other _ hkind
      cases he
      have held := (hh id).kind
      rwa [hkind] at held
    · cases he

end Heap.Holding

end Holding

end ShadowTaint
