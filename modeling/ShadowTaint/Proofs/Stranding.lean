import Mathlib.Data.List.Forall2
import ShadowTaint.Proofs.Ownership
/-!
# Shadows that a refused store leaves on the heap

A refused store takes back the handles that its hook has handed out. Most of them stand on no
heap, but a container that is tracked member by member gets shadows for its members when it is
wrapped, and these stay. This file says exactly when that happens.

## Main definitions

- `Levels.Exposes`: wrapping the value would give shadows to what it holds.
- `Levels.Strays`: a container holds a shadow with a high handle.
- `Memory.Rewraps`: some values were wrapped, with what that did to the heap.
- `Hook.Strands`: a store is refused after its hook has put shadows on the heap.

## Main statements

- `MemoryM.rewraps_wrap`: what wrapping one value does to the heap.
- `Hook.sound_iff`: a hook keeps the heap sound exactly if it does not strand shadows there.
-/

namespace ShadowTaint

open Memory

/-- The value is a container that is tracked member by member, and one of its members is a bare
literal. -/
def Levels.Exposes (levels : Levels) (h : Heap) (v : Value) : Prop :=
  ∃ c id values, v = .object id ∧ levels.policyFor h v = .container c .precise ∧
    h.held? c id = some values ∧ ∃ w ∈ values, w.isBareLiteral = true

/-- A container that is tracked member by member holds a shadow that has the handle with the given
number or a later one. -/
def Levels.Strays (levels : Levels) (h : Heap) (n : Nat) : Prop :=
  ∃ c id values, levels.policyFor h (.object id) = .container c .precise ∧
    h.held? c id = some values ∧ ∃ handle identity raw,
      .shadow handle identity raw ∈ values ∧ n ≤ handle.index

namespace ObjectKind

variable {k : ObjectKind} {c : Container} {values values' : List Value}

theorem held?_withHeld (held : k.held? c = some values) (len : values'.length = values.length) :
    (k.withHeld values').held? c = some values' := by
  cases c <;> cases k <;> cases held
  · rfl
  · rename_i entries
    rw [List.length_map] at len
    show some ((List.zipWith (fun e v => (e.1, v)) entries values').map (·.2)) = some values'
    have pairs : List.zipWith (fun e v => (e.1, v)) entries values' =
        (entries.map (·.1)).zip values' := List.zipWith_map_left.symm
    rw [pairs, List.map_snd_zip (by rw [List.length_map]; omega)]
  · rfl

theorem withHeld_held (held : k.held? c = some values) : k.withHeld values = k := by
  cases c <;> cases k <;> cases held
  · rfl
  · rename_i entries
    show ObjectKind.map (List.zipWith (fun e v => (e.1, v)) entries (entries.map (·.2))) = _
    rw [List.zipWith_map_right, List.zipWith_self]
    simp
  · rfl

end ObjectKind

namespace Heap

variable {h : Heap} {c : Container} {id : ObjectId} {values values' : List Value}

theorem allocated_of_held (held : h.held? c id = some values) : id < h.objects.size := by
  refine Nat.lt_of_not_le fun beyond => ?_
  rw [held?, get_of_size_le h beyond] at held
  cases c <;> cases held

theorem held?_setHeld (held : h.held? c id = some values)
    (len : values'.length = values.length) : (h.setHeld id values').held? c id = some values' := by
  rw [held?, setHeld, get_modify_self (allocated_of_held held)]
  exact ObjectKind.held?_withHeld held len

theorem held?_setHeld_ne {other : ObjectId} (ne : other ≠ id) :
    (h.setHeld id values).held? c other = h.held? c other := by
  rw [held?, setHeld, get_modify_ne h ne]
  rfl

/-- Putting back what a container holds changes nothing. -/
theorem setHeld_held (held : h.held? c id = some values) : h.setHeld id values = h := by
  have same (o : HeapObject) (ho : o = h.get id) : { o with kind := o.kind.withHeld values } = o := by
    subst ho
    rw [ObjectKind.withHeld_held held]
  have allocated := allocated_of_held held
  show Heap.mk (h.objects.modify id _) = h
  congr 1
  refine Array.ext_getElem? fun i => ?_
  rw [Array.getElem?_modify]
  split
  · rename_i hi
    subst hi
    rw [Array.getElem?_eq_getElem allocated, Option.map_some]
    congr 1
    refine same _ ?_
    simp [get, allocated]
  · rfl

theorem importTag?_setHeld (v : Value) : (h.setHeld id values).importTag? v = h.importTag? v := by
  rcases hv : v.object? with _ | o
  · rw [importTag?, importTag?, hv]
    rfl
  · rw [importTag?, importTag?, hv]
    show ((h.setHeld id values).get o).importTag = (h.get o).importTag
    by_cases same : o = id
    · subst same
      by_cases allocated : o < h.objects.size
      · rw [setHeld, get_modify_self allocated]
      · have beyond := Nat.le_of_not_lt allocated
        rw [get_of_size_le h beyond, get_of_size_le _ (by rwa [setHeld, size_modify])]
    · rw [setHeld, get_modify_ne h same]

end Heap

/-- A container has the same policy whatever it holds. -/
theorem Levels.policyFor_setHeld (levels : Levels) (h : Heap) (id : ObjectId) (values : List Value)
    (v : Value) : levels.policyFor (h.setHeld id values) v = levels.policyFor h v := by
  have tag : (h.setHeld id values).importTag? v = h.importTag? v := Heap.importTag?_setHeld v
  rw [policyFor, policyFor]
  congr 1
  by_cases beyond : ∃ o, v = .object o ∧ h.objects.size ≤ o
  · obtain ⟨o, rfl, beyond⟩ := beyond
    have same : (h.setHeld id values).get o = h.get o := by
      rw [Heap.get_of_size_le h beyond,
        Heap.get_of_size_le _ (by rwa [Heap.setHeld, Heap.size_modify])]
    simp only [ValueKind.of, ValueKind.ofImport?, Value.raw, Heap.constructorName, tag, same]
  · refine ValueKind.of_evolves (Heap.evolves_modify _ (ObjectKind.becomes_withHeld _ _)) ?_ tag
    intro o ho
    refine Nat.lt_of_not_le fun le => beyond ⟨o, ?_, le⟩
    cases v with
    | object other =>
      cases ho
      rfl
    | literal l => cases ho
    | shadow handle identity l => cases ho

namespace Memory

theorem Grows.size_le {m m' : Memory} (h : m.Grows m') :
    m.shadow.wraps.size ≤ m'.shadow.wraps.size := by
  refine Nat.le_of_not_lt fun smaller => ?_
  have known := h.known _ _ (Array.getElem?_eq_getElem smaller)
  rw [Array.getElem?_eq_none (Nat.le_refl _)] at known
  cases known

/-- What a member that is tracked on its own becomes: a bare literal gets a shadow with a new handle
where literals get shadows, and everything else stays. -/
def Renews (m : Memory) (v w : Value) : Prop :=
  if v.isBareLiteral = true ∧ m.shadow.frame.callType.skipsWrapping = false then
    ∃ handle identity raw, w = .shadow handle identity raw ∧ m.shadow.wraps.size ≤ handle.index
  else w = v

theorem Renews.mono {m m' : Memory} {v w : Value} (h : m'.Renews v w) (spreads : m.Spreads m') :
    m.Renews v w := by
  unfold Renews at h ⊢
  rw [spreads.frame] at h
  split at h
  · rename_i bare
    obtain ⟨handle, identity, raw, rfl, size⟩ := h
    rw [if_pos bare]
    exact ⟨handle, identity, raw, rfl, Nat.le_trans spreads.toGrows.size_le size⟩
  · rename_i other
    rwa [if_neg other]

/-- Where no member is a bare literal that gets a shadow, all members stay. -/
theorem eq_of_renews {m : Memory} {values ws : List Value} (h : List.Forall₂ m.Renews values ws)
    (hidden : ∀ v ∈ values, ¬ (v.isBareLiteral = true ∧
      m.shadow.frame.callType.skipsWrapping = false)) : ws = values := by
  induction h with
  | nil => rfl
  | @cons v w values ws renews _ ih =>
    rw [Renews, if_neg (hidden v List.mem_cons_self)] at renews
    rw [renews, ih fun v hv => hidden v (List.mem_cons_of_mem _ hv)]

/-- For a bare literal that gets a shadow there is a new handle among the members. -/
theorem exists_of_renews {m : Memory} {values ws : List Value} (h : List.Forall₂ m.Renews values ws)
    (wraps : m.shadow.frame.callType.skipsWrapping = false)
    (bare : ∃ v ∈ values, v.isBareLiteral = true) :
    ∃ handle identity raw, .shadow handle identity raw ∈ ws ∧
      m.shadow.wraps.size ≤ handle.index := by
  obtain ⟨v, hv, bare⟩ := bare
  induction h with
  | nil => cases hv
  | cons renews _ ih =>
    rcases List.mem_cons.mp hv with rfl | hv
    · rw [Renews, if_pos ⟨bare, wraps⟩] at renews
      obtain ⟨handle, identity, raw, rfl, size⟩ := renews
      exact ⟨handle, identity, raw, List.mem_cons_self, size⟩
    · obtain ⟨handle, identity, raw, mem, size⟩ := ih hv
      exact ⟨handle, identity, raw, List.mem_cons_of_mem _ mem, size⟩

/-- Members that have shadows keep them. -/
theorem shadow_of_renews {m : Memory} {values ws : List Value} (h : List.Forall₂ m.Renews values ws)
    {handle : Handle} {identity : Identity} {raw : Literal}
    (mem : .shadow handle identity raw ∈ values) : .shadow handle identity raw ∈ ws := by
  induction h with
  | nil => cases mem
  | cons renews _ ih =>
    rcases List.mem_cons.mp mem with rfl | mem
    · rw [Renews, if_neg (by rintro ⟨⟨⟩, -⟩)] at renews
      rw [renews]
      exact List.mem_cons_self
    · exact List.mem_cons_of_mem _ (ih mem)

end Memory

namespace MemoryM

theorem renews_hold (v : Value) (m : Memory) : m.Renews v (hold .precise v m).1 := by
  unfold Renews
  cases v with
  | literal raw =>
    rcases skips : m.shadow.frame.callType.skipsWrapping
    · rw [if_pos ⟨rfl, rfl⟩]
      refine ⟨⟨m.shadow.wraps.size⟩, m.shadow.mint.1, raw, ?_, Nat.le_refl _⟩
      exact congrArg Prod.fst (shadow_of_wraps (m := { m with shadow := m.shadow.mint.2 }) skips _ raw)
    · rw [if_neg (by simp)]
      exact congrArg Prod.fst (shadow_of_skips (m := { m with shadow := m.shadow.mint.2 }) skips _ raw)
  | object id => exact rfl
  | shadow handle identity raw => exact rfl

theorem renews_mapM (values : List Value) (m : Memory) :
    List.Forall₂ m.Renews values (values.mapM (hold .precise) m).1 := by
  induction values generalizing m with
  | nil => exact .nil
  | cons v rest ih =>
    rw [List.mapM_cons]
    have later := ih (hold .precise v m).2
    exact .cons (renews_hold v m) (later.imp fun _ _ h => h.mono (spreads_hold .precise v m))

theorem raw_mapM_hold (values : List Value) (m : Memory) :
    ∀ r ∈ (values.mapM (hold .imprecise) m).1, r.raw = r := by
  have raws := raw_mapM (fun r : Value => r) (f := hold .imprecise) raw_unwrap values m
  rwa [List.map_id'] at raws

theorem objectOf?_eq_some {m : Memory} {v : Value} {id : ObjectId} (h : m.objectOf? v = some id) :
    v = .object id := by
  cases v with
  | object other =>
    cases h
    rfl
  | literal l => cases h
  | shadow handle identity raw =>
    rw [Memory.objectOf?, Memory.valueOf, ShadowState.valueOf] at h
    split at h <;> cases h

/-- What wrapping a value does to the heap: it leaves it alone, or it changes what the value holds as
a container. -/
theorem heap_wrap_cases (levels : Levels) (v : Value) (m : Memory) :
    (∃ c grain id values, v = .object id ∧ levels.policyFor m.heap v = .container c grain ∧
      m.heap.held? c id = some values ∧
      (wrap levels v m).2.heap = m.heap.setHeld id (values.mapM (hold grain) m).1) ∨
    ((wrap levels v m).2.heap = m.heap ∧ ¬ levels.Exposes m.heap v) := by
  have settled : (wrap levels v m).2.heap =
      (settle (levels.policyFor m.heap (m.valueOf v)) v m).2.heap ∨
        ((wrap levels v m).2.heap = m.heap ∧ ¬ levels.Exposes m.heap v) := by
    cases v with
    | literal raw =>
      have issued : Within Issues (wrap levels (.literal raw)) :=
        .bind issues_takeIdentity fun id => issues_shadow id raw
      exact .inr ⟨(issued m).heap, fun ⟨_, _, _, impossible, _⟩ => nomatch impossible⟩
    | object id => exact .inl (issues_discard _).heap
    | shadow handle identity raw => exact .inl (issues_discard _).heap
  rcases settled with heap | alone
  · rw [heap]
    rcases settle_cases (levels.policyFor m.heap (m.valueOf v)) v m with
      ⟨c, grain, id, values, policy, object, held, settled⟩ | ⟨same, unheld⟩
    · cases objectOf?_eq_some object
      refine .inl ⟨c, grain, id, values, rfl, policy, held, ?_⟩
      rw [settled]
      exact congrArg (·.setHeld id (values.mapM (hold grain) m).1)
        (Within.mapM (issues_hold grain) values m).heap
    · refine .inr ⟨by rw [same], fun ⟨c, id, values, object, policy, held, _⟩ => ?_⟩
      subst object
      rw [unheld c .precise id policy rfl] at held
      cases held
  · exact .inr alone

end MemoryM

namespace Memory

/-- Literals get shadows in the current frame, and one of the values exposes bare literals to that. -/
def Exposed (levels : Levels) (vs : List Value) (m : Memory) : Prop :=
  m.shadow.frame.callType.skipsWrapping = false ∧ ∃ v ∈ vs, levels.Exposes m.heap v

/-- Some values were wrapped one after the other. If one of them was exposed, new shadows are on the
heap afterwards, and no later step takes them away; otherwise nothing came to the heap but bare
values, and the same values are exposed as before. -/
structure Rewraps (levels : Levels) (vs : List Value) (m m' : Memory) : Prop where
  grows : m.Grows m'
  callType : m'.shadow.frame.callType = m.shadow.frame.callType
  strays : m.Exposed levels vs → levels.Strays m'.heap m.shadow.wraps.size
  stays : ∀ n, levels.Strays m.heap n → levels.Strays m'.heap n
  holding : ¬ m.Exposed levels vs → ∀ P : Value → Prop, (∀ v, v.raw = v → P v) →
    m.heap.Holding P → m'.heap.Holding P
  exposes : ¬ m.Exposed levels vs → ∀ v, levels.Exposes m'.heap v ↔ levels.Exposes m.heap v

variable {levels : Levels} {m m' m'' : Memory} {vs ws : List Value}

theorem exposed_append : m.Exposed levels (vs ++ ws) ↔ m.Exposed levels vs ∨ m.Exposed levels ws := by
  unfold Exposed
  simp only [List.mem_append, or_and_right, exists_or, and_or_left]

namespace Rewraps

theorem refl (levels : Levels) (m : Memory) : m.Rewraps levels [] m where
  grows := .refl m
  callType := rfl
  strays := fun ⟨_, _, impossible, _⟩ => nomatch impossible
  stays _ h := h
  holding _ _ _ h := h
  exposes _ _ := .rfl

theorem exposed_iff (h : m.Rewraps levels vs m') (hidden : ¬ m.Exposed levels vs) (ws : List Value) :
    m'.Exposed levels ws ↔ m.Exposed levels ws := by
  unfold Exposed
  rw [h.callType]
  simp only [h.exposes hidden]

theorem trans (first : m.Rewraps levels vs m') (second : m'.Rewraps levels ws m'') :
    m.Rewraps levels (vs ++ ws) m'' where
  grows := first.grows.trans second.grows
  callType := second.callType.trans first.callType
  strays exposed := by
    by_cases before : m.Exposed levels vs
    · exact second.stays _ (first.strays before)
    · have later := (exposed_append.mp exposed).resolve_left before
      obtain ⟨c, id, values, policy, held, handle, identity, raw, mem, beyond⟩ :=
        second.strays ((first.exposed_iff before ws).mpr later)
      exact ⟨c, id, values, policy, held, handle, identity, raw, mem,
        Nat.le_trans first.grows.size_le beyond⟩
  stays n h := second.stays n (first.stays n h)
  holding hidden P bare h := by
    rw [exposed_append, not_or] at hidden
    have hidden' : ¬ m'.Exposed levels ws := by rw [first.exposed_iff hidden.1]; exact hidden.2
    exact second.holding hidden' P bare (first.holding hidden.1 P bare h)
  exposes hidden v := by
    rw [exposed_append, not_or] at hidden
    have hidden' : ¬ m'.Exposed levels ws := by rw [first.exposed_iff hidden.1]; exact hidden.2
    rw [second.exposes hidden', first.exposes hidden.1]

end Rewraps

end Memory

namespace MemoryM

variable {levels : Levels} {m : Memory}

/-- A value that is not exposed leaves the heap alone, or as a container that is tracked as a whole it
drops the shadows of its members. -/
theorem heap_wrap_of_hidden {v : Value} (hidden : ¬ m.Exposed levels [v]) :
    (wrap levels v m).2.heap = m.heap ∨ ∃ c id raws,
      levels.policyFor m.heap (.object id) = .container c .imprecise ∧ (∀ r ∈ raws, r.raw = r) ∧
      (wrap levels v m).2.heap = m.heap.setHeld id raws := by
  rcases heap_wrap_cases levels v m with ⟨c, grain, id, values, rfl, policy, held, heap⟩ | ⟨same, -⟩
  · cases grain with
    | imprecise => exact .inr ⟨c, id, _, policy, raw_mapM_hold values m, heap⟩
    | precise =>
      left
      have members : (values.mapM (hold .precise) m).1 = values := by
        refine eq_of_renews (renews_mapM values m) fun v hv ⟨bare, wraps⟩ => hidden ⟨wraps, ?_⟩
        exact ⟨_, List.mem_singleton_self _, c, id, values, rfl, policy, held, v, hv, bare⟩
      rw [heap, members, Heap.setHeld_held held]
  · exact .inl same

/-- A value that is exposed gets new shadows for its members. -/
theorem strays_wrap_of_exposed {v : Value} (exposed : m.Exposed levels [v]) :
    levels.Strays (wrap levels v m).2.heap m.shadow.wraps.size := by
  obtain ⟨wraps, w, hw, exposes⟩ := exposed
  cases List.mem_singleton.mp hw
  rcases heap_wrap_cases levels v m with ⟨c, grain, id, values, rfl, policy, held, heap⟩ | ⟨-, not⟩
  · obtain ⟨c', id', values', object, policy', held', bare⟩ := exposes
    cases object
    rw [policy] at policy'
    cases policy'
    rw [held] at held'
    cases held'
    have renews := renews_mapM values m
    rw [heap]
    refine ⟨c, id, _, (levels.policyFor_setHeld _ _ _ _).trans policy, ?_,
      exists_of_renews renews wraps bare⟩
    exact Heap.held?_setHeld held renews.length_eq.symm
  · exact absurd exposes not

/-- No shadow of a container that is tracked member by member is taken away. -/
theorem strays_wrap (v : Value) {n : Nat} (strays : levels.Strays m.heap n) :
    levels.Strays (wrap levels v m).2.heap n := by
  obtain ⟨c, id, values, policy, held, handle, identity, raw, mem, beyond⟩ := strays
  rcases heap_wrap_cases levels v m with
    ⟨c', grain, id', values', rfl, policy', held', heap⟩ | ⟨same, -⟩
  · rw [heap]
    by_cases other : id = id'
    · subst other
      rw [policy] at policy'
      cases policy'
      rw [held] at held'
      cases held'
      have renews := renews_mapM values m
      exact ⟨c, id, _, (levels.policyFor_setHeld _ _ _ _).trans policy,
        Heap.held?_setHeld held renews.length_eq.symm, handle, identity, raw,
        shadow_of_renews renews mem, beyond⟩
    · exact ⟨c, id, values, (levels.policyFor_setHeld _ _ _ _).trans policy,
        (Heap.held?_setHeld_ne other).trans held, handle, identity, raw, mem, beyond⟩
  · rw [same]
    exact ⟨c, id, values, policy, held, handle, identity, raw, mem, beyond⟩

/-- Changing what a container that is tracked as a whole holds exposes nothing and hides nothing. -/
theorem exposes_setHeld {h : Heap} {c : Container} {id : ObjectId} {raws : List Value}
    (policy : levels.policyFor h (.object id) = .container c .imprecise) (v : Value) :
    levels.Exposes (h.setHeld id raws) v ↔ levels.Exposes h v := by
  unfold Levels.Exposes
  simp only [levels.policyFor_setHeld]
  refine exists_congr fun c' => exists_congr fun o => exists_congr fun values => ?_
  refine and_congr_right fun object => and_congr_right fun policy' => ?_
  subst object
  have other : o ≠ id := by
    rintro rfl
    rw [policy] at policy'
    cases policy'
  rw [Heap.held?_setHeld_ne other]

/-- What wrapping one value does to the heap. -/
theorem rewraps_wrap (levels : Levels) (v : Value) (m : Memory) :
    m.Rewraps levels [v] (wrap levels v m).2 where
  grows := (stacks_wrap levels v m).toGrows
  callType := (stacks_wrap levels v m).callType
  strays := strays_wrap_of_exposed
  stays n := strays_wrap v
  holding hidden P bare h := by
    rcases heap_wrap_of_hidden hidden with same | ⟨c, id, raws, -, raw, heap⟩
    · rwa [same]
    · rw [heap]
      exact h.modify fun ho => ⟨ho.kind.withHeld fun r hr => bare r (raw r hr), ho.properties⟩
  exposes hidden w := by
    rcases heap_wrap_of_hidden hidden with same | ⟨c, id, raws, policy, -, heap⟩
    · rw [same]
    · rw [heap]
      exact exposes_setHeld policy w

end MemoryM

namespace Tracker

/-- The values that the hook after a store wraps, in this order. -/
def rewrapped (levels : Levels) (h : Heap) (base offset v : Value) : List Value :=
  (if levels.policyFor h base = .container .array .imprecise then [v] else []) ++ [offset] ++ [base]

variable {levels : Levels} {m : Memory}

theorem rewraps_restoreStored (levels : Levels) (policy : Policy) (v : Value) (m : Memory) :
    m.Rewraps levels (if policy = .container .array .imprecise then [v] else [])
      (MemoryM.restoreStored levels policy v m).2 := by
  by_cases strips : policy = .container .array .imprecise
  · rw [MemoryM.restoreStored_of_strips levels strips, if_pos strips]
    exact MemoryM.rewraps_wrap levels v m
  · rw [MemoryM.restoreStored_of_keeps levels strips, if_neg strips]
    exact .refl levels m

/-- When a store is refused, its operands have been wrapped, and nothing else was done to the heap. -/
theorem rewraps_putFieldAttempt {base offset v : Value} {e : Fault} {m' : Memory}
    (run : putFieldAttempt base offset v levels m = (.error e, m')) :
    ∃ m₁, m.Rewraps levels (rewrapped levels m.heap base offset v) m₁ ∧ m'.heap = m₁.heap := by
  have first := rewraps_restoreStored levels (levels.policyFor m.heap base) v m
  obtain ⟨w, m₁, run₁⟩ : ∃ w m₁, MemoryM.restoreStored levels (levels.policyFor m.heap base) v m =
    (w, m₁) := ⟨_, _, rfl⟩
  rw [run₁] at first
  have second := MemoryM.rewraps_wrap levels offset m₁
  obtain ⟨o, m₂, run₂⟩ : ∃ o m₂, MemoryM.wrap levels offset m₁ = (o, m₂) := ⟨_, _, rfl⟩
  rw [run₂] at second
  have third := MemoryM.rewraps_wrap levels base m₂
  obtain ⟨b, m₃, run₃⟩ : ∃ b m₃, MemoryM.wrap levels base m₂ = (b, m₃) := ⟨_, _, rfl⟩
  rw [run₃] at third
  rw [putFieldAttempt_apply levels run₁ run₂ run₃] at run
  refine ⟨m₃, (first.trans second).trans third, ?_⟩
  rcases recordStore_cases levels ⟨b, o, w⟩ m₃ with ⟨_, stored, -⟩ | ⟨_, m'', refused, count, rfl⟩
  · rw [stored] at run
    cases run
  · rw [refused] at run
    cases run
    rfl

/-- A refused store leaves the heap sound exactly if none of the values that its hook has wrapped was
exposed. -/
theorem sound_refused_iff {base offset v : Value} {e : Fault} {m' : Memory} (sound : m.Sound)
    (run : putFieldAttempt base offset v levels m = (.error e, m')) :
    (m.refused m').Sound ↔ ¬ m.Exposed levels (rewrapped levels m.heap base offset v) := by
  have wraps : (m.refused m').shadow.wraps = m.shadow.wraps := by
    rcases putFieldAttempt_cases levels base offset v m with
      ⟨ops, _, _, ok, -⟩ | ⟨_, ids, m₁, m₂, failed, stacked, -, count, rfl⟩
    · rw [ok] at run
      cases run
    · rw [failed] at run
      cases run
      exact stacked.toGrows.take_wraps
  obtain ⟨m₁, rewraps, heap⟩ := rewraps_putFieldAttempt run
  constructor
  · intro after exposed
    obtain ⟨c, id, values, -, held, handle, identity, raw, mem, beyond⟩ := rewraps.strays exposed
    rw [← heap] at held
    -- the handle was issued by the refused hook, so it is none of those that are left
    have owned := ObjectKind.Holding.held (after id).kind held _ mem
    have known : m.shadow.wraps[handle.index]? = some (identity, raw) := by
      rw [← wraps]
      exact owned
    rw [Array.getElem?_eq_none beyond] at known
    cases known
  · intro hidden
    have holding := rewraps.holding hidden (·.OwnedBy m.shadow) (fun _ => Value.ownedBy_of_raw) sound
    show m'.heap.Holding (·.OwnedBy (m.refused m').shadow)
    rw [heap]
    refine holding.mono fun w hw => ?_
    cases w with
    | shadow handle identity raw =>
      show (m.refused m').shadow.wraps[handle.index]? = some (identity, raw)
      rw [wraps]
      exact hw
    | literal l => trivial
    | object id => trivial

end Tracker

namespace Hook

/-- The hook is the one after a store, it refuses the store, and one of the values that it wraps is
exposed. -/
def Strands (t : Tracker) : Hook → Prop
  | putField base offset v =>
    (∃ e, ((putField base offset v).run t).1 = .error e) ∧
      t.memory.Exposed t.settings.policies
        (Tracker.rewrapped t.settings.policies t.memory.heap base offset v)
  | _ => False

/-- A hook keeps the heap sound exactly if it does not strand shadows there. -/
theorem sound_iff (h : Hook) {t : Tracker} (sound : t.memory.Sound) :
    (h.run t).2.memory.Sound ↔ ¬ h.Strands t := by
  by_cases store : h.IsStore
  · cases h with
    | putField base offset v =>
      rcases attempt : Tracker.putFieldAttempt base offset v t.settings.policies t.memory with
        ⟨e | ops, m'⟩
      · obtain ⟨t', hooked, memory, -, -⟩ := HookM.memoryHook_of "put_field"
          (fun t => [("base", t.render base), ("offset", t.render offset), ("value", t.render v)])
          (Tracker.putFieldBody base offset v) (Tracker.putFieldBody_of_error attempt)
        have run : (putField base offset v).run t = (.error e, t') := bind_apply_error hooked
        have ended : t'.memory.Sound ↔ (t.memory.refused m').Sound := by
          rw [memory]
          exact .rfl
        rw [run, ended, Tracker.sound_refused_iff sound attempt]
        exact not_congr ⟨fun exposed => ⟨⟨e, by rw [run]⟩, exposed⟩, fun strands => strands.2⟩
      · obtain ⟨t', hooked, memory, -, -⟩ := HookM.memoryHook_of "put_field"
          (fun t => [("base", t.render base), ("offset", t.render offset), ("value", t.render v)])
          (Tracker.putFieldBody base offset v) (Tracker.putFieldBody_of_ok attempt)
        have run : (putField base offset v).run t =
            (.ok [ops.base, ops.offset, ops.value], t') := bind_apply_ok hooked
        have stored : m'.Sound := by
          rcases Tracker.putFieldAttempt_cases t.settings.policies base offset v t.memory with
            ⟨_, _, _, ok, stacked⟩ | ⟨_, _, _, _, failed, -⟩
          · rw [ok] at attempt
            cases attempt
            exact stacked.sound sound
          · rw [failed] at attempt
            cases attempt
        have ended : t'.memory.Sound := by
          rw [memory]
          exact m'.keeps_ended.sound stored
        rw [run]
        refine iff_of_true ended ?_
        rintro ⟨⟨e, failed⟩, -⟩
        rw [run] at failed
        cases failed
    | _ => exact store.elim
  · have stays : ¬ h.Strands t := fun strands => store (by cases h <;> trivial)
    exact iff_of_true ((h.keeps store t).memory.sound sound) stays

end Hook

end ShadowTaint
