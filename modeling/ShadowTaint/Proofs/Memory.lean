import ShadowTaint.Memory.Taint
import ShadowTaint.Memory.Wrap
import ShadowTaint.Proofs.Action
import ShadowTaint.Proofs.Heap
import ShadowTaint.Proofs.Shadow
/-!
# What actions keep

Actions on the memory are sorted by how much of it they leave alone. Each sort is a preorder, so an
action belongs to it as soon as its parts do.

## Main definitions

- `Memory.Grows`: objects stay what they are, handles keep standing for the same, and identities are
  only counted up.
- `Memory.Keeps`: moreover every shadow on the heap keeps standing for what it carries.
- `Memory.Spreads`: moreover no frame changes.
- `Memory.Marks`: only recorded taint changes.

## Design notes

Two of the clauses are implications: what they conclude is an invariant of runs, but it does not
hold of every memory. An action that stays within `Marks` stays within all the others.
-/

namespace ShadowTaint

namespace Memory

/-- Every shadow on the heap has a handle that stands for what the shadow carries. -/
def Sound (m : Memory) : Prop := m.heap.Holding (·.OwnedBy m.shadow)

/-- The second memory may come out of the first one by steps of the tracker or of the host. -/
structure Grows (m m' : Memory) : Prop where
  evolves : m.heap.Evolves m'.heap
  known : ∀ (i : Nat) x, m.shadow.wraps[i]? = some x → m'.shadow.wraps[i]? = some x
  minted : m.shadow.nextIdentity ≤ m'.shadow.nextIdentity
  bounded : m.shadow.Bounded → m'.shadow.Bounded

/-- The second memory may come out of the first one by steps that do not take handles back. -/
structure Keeps (m m' : Memory) : Prop extends Grows m m' where
  sound : m.Sound → m'.Sound

/-- The frames, the saved ones and what was left for the next hook are the same. -/
structure Spreads (m m' : Memory) : Prop extends Keeps m m' where
  frame : m'.shadow.frame = m.shadow.frame
  saved : m'.shadow.saved = m.shadow.saved
  context : m'.shadow.context = m.shadow.context

/-- Nothing but recorded taint is different, and taint is recorded only for identities that a handle
stands for. -/
structure Marks (m m' : Memory) : Prop where
  heap : m'.heap = m.heap
  wraps : m'.shadow.wraps = m.shadow.wraps
  nextIdentity : m'.shadow.nextIdentity = m.shadow.nextIdentity
  frame : m'.shadow.frame = m.shadow.frame
  saved : m'.shadow.saved = m.shadow.saved
  context : m'.shadow.context = m.shadow.context
  entries : ∀ id, m'.shadow.entries.contains (.identity id) = true →
    m.shadow.entries.contains (.identity id) = true ∨ ∃ raw, (id, raw) ∈ m.shadow.wraps

theorem Grows.refl (m : Memory) : m.Grows m := ⟨.refl _, fun _ _ h => h, Nat.le_refl _, id⟩

theorem Grows.trans {m₁ m₂ m₃ : Memory} (h₁ : m₁.Grows m₂) (h₂ : m₂.Grows m₃) : m₁.Grows m₃ where
  evolves := h₁.evolves.trans h₂.evolves
  known i x h := h₂.known i x (h₁.known i x h)
  minted := Nat.le_trans h₁.minted h₂.minted
  bounded h := h₂.bounded (h₁.bounded h)

theorem Keeps.trans {m₁ m₂ m₃ : Memory} (h₁ : m₁.Keeps m₂) (h₂ : m₂.Keeps m₃) : m₁.Keeps m₃ where
  toGrows := h₁.toGrows.trans h₂.toGrows
  sound h := h₂.sound (h₁.sound h)

theorem Spreads.trans {m₁ m₂ m₃ : Memory} (h₁ : m₁.Spreads m₂) (h₂ : m₂.Spreads m₃) :
    m₁.Spreads m₃ where
  toKeeps := h₁.toKeeps.trans h₂.toKeeps
  frame := h₂.frame.trans h₁.frame
  saved := h₂.saved.trans h₁.saved
  context := h₂.context.trans h₁.context

theorem Marks.trans {m₁ m₂ m₃ : Memory} (h₁ : m₁.Marks m₂) (h₂ : m₂.Marks m₃) : m₁.Marks m₃ where
  heap := h₂.heap.trans h₁.heap
  wraps := h₂.wraps.trans h₁.wraps
  nextIdentity := h₂.nextIdentity.trans h₁.nextIdentity
  frame := h₂.frame.trans h₁.frame
  saved := h₂.saved.trans h₁.saved
  context := h₂.context.trans h₁.context
  entries id h := by
    rcases h₂.entries id h with h | h
    · exact h₁.entries id h
    · rw [h₁.wraps] at h
      exact .inr h

instance : IsPreorder Memory Grows where
  refl := .refl
  trans _ _ _ := .trans

instance : IsPreorder Memory Keeps where
  refl m := ⟨.refl m, id⟩
  trans _ _ _ := .trans

instance : IsPreorder Memory Spreads where
  refl m := ⟨⟨.refl m, id⟩, rfl, rfl, rfl⟩
  trans _ _ _ := .trans

instance : IsPreorder Memory Marks where
  refl _ := ⟨rfl, rfl, rfl, rfl, rfl, rfl, fun _ => .inl⟩
  trans _ _ _ := .trans

section Handles

variable {m m' : Memory}

theorem lookup?_of_wraps (h : m'.shadow.wraps = m.shadow.wraps) (v : Value) :
    m'.shadow.lookup? v = m.shadow.lookup? v := by
  cases v <;> simp only [ShadowState.lookup?, h]

theorem valueOf_of_wraps (h : m'.shadow.wraps = m.shadow.wraps) (v : Value) :
    m'.valueOf v = m.valueOf v := by
  rw [valueOf, valueOf, ShadowState.valueOf, ShadowState.valueOf, lookup?_of_wraps h]

theorem keyOf_of_wraps (h : m'.shadow.wraps = m.shadow.wraps) (v : Value) :
    m'.shadow.keyOf v = m.shadow.keyOf v := by
  rw [ShadowState.keyOf, ShadowState.keyOf, lookup?_of_wraps h]

end Handles

section Known

variable {m : Memory} {v : Value} {id : Identity} {raw : Literal}

theorem stored?_of_lookup (known : m.shadow.lookup? v = some (id, raw)) :
    m.stored? v = m.shadow.entries.get? (.identity id) := by
  rw [stored?, ShadowState.stored?, ShadowState.keyOf, known]
  rfl

/-- A literal with a known shadow counts as tainted if its entry records any taint. -/
theorem isTainted_of_lookup (known : m.shadow.lookup? v = some (id, raw)) :
    m.isTainted v = (m.shadow.entries.get? (.identity id)).any TaintEntry.isTainted := by
  have memberless : m.members v = [] := by
    rw [members, objectOf?, valueOf, ShadowState.valueOf_of_lookup known]
    rfl
  rw [isTainted, taintBit, anyProps, memberless, stored?_of_lookup known]
  cases m.shadow.entries.get? (.identity id) with
  | none => rfl
  | some e =>
    rw [Option.any_some, Option.any_some, Option.bind_some, TaintEntry.isTainted]
    cases e.chars with
    | none => rfl
    | some map => rfl

end Known

/-- Shadows stay on the heap as they are, so it is enough that handles keep standing for the
same. -/
theorem sound_of_known {m m' : Memory} (heap : m'.heap = m.heap)
    (known : ∀ (i : Nat) x, m.shadow.wraps[i]? = some x → m'.shadow.wraps[i]? = some x) (h : m.Sound) :
    m'.Sound := by
  unfold Sound
  rw [heap]
  refine Heap.Holding.mono h fun v hv => ?_
  cases v with
  | shadow handle identity raw => exact known _ _ hv
  | literal l => trivial
  | object id => trivial

theorem Grows.ownedBy {m m' : Memory} (h : m.Grows m') {v : Value} (hv : v.OwnedBy m.shadow) :
    v.OwnedBy m'.shadow := by
  cases v with
  | shadow handle identity raw => exact h.known _ _ hv
  | literal l => trivial
  | object id => trivial

theorem Grows.lookup? {m m' : Memory} (h : m.Grows m') {v : Value} {x : Identity × Literal}
    (hv : m.shadow.lookup? v = some x) : m'.shadow.lookup? v = some x := by
  cases v with
  | shadow handle identity raw => exact h.known _ _ hv
  | literal l => cases hv
  | object id => cases hv

theorem Grows.keyOf {m m' : Memory} (h : m.Grows m') {v : Value} {key : TaintKey}
    (own : m.shadow.keyOf v = some key) : m'.shadow.keyOf v = some key := by
  unfold ShadowState.keyOf at own ⊢
  rcases known : m.shadow.lookup? v with _ | ⟨id, raw⟩ <;> rw [known] at own
  · cases v with
    | object id => exact own
    | literal l => cases own
    | shadow handle identity raw => cases own
  · rw [h.lookup? known]
    exact own

/-- A further step of the shadow state that takes no handle and no identity back. What is needed for
the bound may have been known before the earlier steps. -/
theorem Keeps.withShadow {m m' : Memory} (h : m.Keeps m') {s : ShadowState}
    (known : ∀ (i : Nat) x, m'.shadow.wraps[i]? = some x → s.wraps[i]? = some x)
    (next : m'.shadow.nextIdentity ≤ s.nextIdentity)
    (bounded : m.shadow.Bounded → m'.shadow.Bounded → s.Bounded) :
    m.Keeps { m' with shadow := s } where
  evolves := h.evolves
  known i x hx := known i x (h.known i x hx)
  minted := Nat.le_trans h.minted next
  bounded hb := bounded hb (h.bounded hb)
  sound hs := sound_of_known (m := m') rfl known (h.sound hs)

theorem Marks.spreads {m m' : Memory} (h : m.Marks m') : m.Spreads m' where
  evolves := by
    rw [h.heap]
    exact .refl _
  known i x hx := by rwa [h.wraps]
  minted := Nat.le_of_eq h.nextIdentity.symm
  bounded bounded := by
    refine bounded.of_mentions (Nat.le_of_eq h.nextIdentity.symm) fun id mention => .inl ?_
    rcases mention with entry | ⟨raw, handle⟩ | mention | ⟨site, f, hf, mention⟩
    · rcases h.entries id entry with entry | handle
      · exact .inl entry
      · exact .inr (.inl handle)
    · rw [h.wraps] at handle
      exact .inr (.inl ⟨raw, handle⟩)
    · rw [h.frame] at mention
      exact .inr (.inr (.inl mention))
    · rw [ShadowState.framesAt, h.saved] at hf
      exact .inr (.inr (.inr ⟨site, f, hf, mention⟩))
  sound := sound_of_known h.heap fun i x hx => by rwa [h.wraps]
  frame := h.frame
  saved := h.saved
  context := h.context

/-- A further step on the heap alone. That it puts no strange shadow there may follow from what was
known before the earlier steps. -/
theorem Spreads.withHeap {m m' : Memory} (h : m.Spreads m') {heap : Heap}
    (evolves : m'.heap.Evolves heap)
    (sound : m.Sound → m'.Sound → heap.Holding (·.OwnedBy m'.shadow)) :
    m.Spreads { m' with heap } where
  evolves := h.evolves.trans evolves
  known := h.known
  minted := h.minted
  bounded := h.bounded
  sound hs := sound hs (h.sound hs)
  frame := h.frame
  saved := h.saved
  context := h.context

end Memory

open Memory

namespace Within

variable {α : Type} {ε : Type}

theorem spreads {x : MemoryM α} (h : Within Marks x) : Within Spreads x :=
  h.mono fun _ _ => Marks.spreads

theorem keeps {x : MemoryM α} (h : Within Spreads x) : Within Keeps x :=
  h.mono fun _ _ => Spreads.toKeeps

theorem grows {x : MemoryM α} (h : Within Keeps x) : Within Grows x :=
  h.mono fun _ _ => Keeps.toGrows

end Within

namespace MemoryM

section Taint

theorem marks_useNodes (count : Nat) : Within Marks (useNodes count) :=
  fun _ => ⟨rfl, rfl, rfl, rfl, rfl, rfl, fun _ => .inl⟩

theorem marks_store (v : Value) (e : TaintEntry) : Within Marks (store v e) := by
  intro m
  change m.Marks { m with shadow := m.shadow.store v e }
  unfold ShadowState.store
  cases hk : m.shadow.keyOf v with
  | none => exact refl_of Marks m
  | some key =>
    refine ⟨rfl, rfl, rfl, rfl, rfl, rfl, fun id entry => ?_⟩
    change (m.shadow.entries.insert key e).contains (.identity id) = true at entry
    rw [Table.contains, Table.get?_insert] at entry
    split at entry
    · rename_i same
      subst same
      unfold ShadowState.keyOf at hk
      split at hk
      · rename_i other raw hv
        cases hk
        cases v with
        | shadow handle identity l => exact .inr ⟨raw, Array.mem_of_getElem? hv⟩
        | literal l => cases hv
        | object id => cases hv
      · rcases hv : v.object? with _ | object <;> rw [hv] at hk <;> cases hk
    · exact .inl entry

theorem marks_entry (v : Value) : Within Marks (entry v) :=
  .bind .get fun _ => .bind (marks_useNodes 1) fun _ => .pure _

theorem marks_history (v : Value) : Within Marks (history v) :=
  .bind (marks_entry v) fun _ => .pure _

theorem marks_node (label : String) (parents : List Provenance.Node) (v : Value) :
    Within Marks (node label parents v) :=
  .bind .get fun _ => .bind (marks_useNodes _) fun _ => .pure _

theorem marks_record (v : Value) (bit : Bool) (chars : Option CharMap) (label : String)
    (parents : List Provenance.Node) : Within Marks (record v bit chars label parents) :=
  .bind (marks_node label parents v) fun _ => marks_store v _

theorem marks_recordWhole (v : Value) (tainted : Bool) (label : String)
    (parents : List Provenance.Node) : Within Marks (recordWhole v tainted label parents) :=
  .bind .get fun _ => marks_record v _ _ _ _

theorem marks_setTaint (v : Value) (tainted : Bool) : Within Marks (setTaint v tainted) :=
  .bind (marks_history v) fun _ => marks_recordWhole v _ _ _

theorem marks_relabel (v : Value) (label : String) : Within Marks (relabel v label) :=
  .bind (marks_entry v) fun _ => .bind (marks_node _ _ v) fun _ => marks_store v _

theorem marks_setPropertyTaint (v : Value) (key : String) (tainted : Bool) :
    Within Marks (CheckedM.setPropertyTaint v key tainted) := by
  refine .bind_except .get_except fun m => ?_
  split
  · exact .throw _
  · refine .bind_except (.lift (marks_entry v)) fun old => ?_
    dsimp only
    split
    · exact .throw _
    · exact .lift (marks_record v _ _ _ _)

theorem marks_check (v : Value) : Within Marks (CheckedM.check v) := by
  refine .bind_except .get_except fun m => ?_
  split
  · exact .bind_except (.lift (marks_history v)) fun _ => .throw _
  · exact .pure_except _

end Taint

end MemoryM

end ShadowTaint
