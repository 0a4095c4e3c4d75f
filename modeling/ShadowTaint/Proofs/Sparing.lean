import ShadowTaint.Proofs.Stranding
/-!
# What leaves properties alone

Wrapping a value may change what it holds as a container, a taint rule may give an array new elements or
run a native function, and that may add objects to the heap. None of it stores a property of an object.

## Main definitions

- `Heap.Spares`: every object has the properties that it had.

## Main statements

- `Native.run_heap`: what a native function does to the heap.
- `MemoryM.spares_wrap`, `Memory.admitsRules_spares`: wrapping and the taint rules spare properties.
-/

namespace ShadowTaint

open Memory Tracker

/-- Every object has the properties that it had, and new objects have none. -/
def Heap.Spares (h h' : Heap) : Prop := ∀ x, (h'.get x).properties = (h.get x).properties

namespace Heap

variable (h : Heap)

theorem spares_modify (id : ObjectId) {f : HeapObject → HeapObject}
    (same : ∀ o, (f o).properties = o.properties) : h.Spares (h.modify id f) := by
  intro x
  by_cases here : x = id
  · subst here
    by_cases allocated : x < h.objects.size
    · rw [get_modify_self allocated, same]
    · have missing := Nat.le_of_not_lt allocated
      rw [get_of_size_le _ missing, get_of_size_le _ (by rwa [size_modify])]
  · rw [get_modify_ne h here]

theorem spares_setHeld (id : ObjectId) (values : List Value) : h.Spares (h.setHeld id values) :=
  h.spares_modify id fun _ => rfl

theorem spares_allocKind (kind : ObjectKind) : h.Spares (h.allocKind kind).2 := by
  intro x
  change ((h.alloc { kind }).2.get x).properties = _
  rcases Nat.lt_trichotomy x h.objects.size with there | rfl | beyond
  · rw [get_alloc_of_lt h _ there]
  · rw [get_alloc_self, get_of_size_le h (Nat.le_refl _)]
    rfl
  · rw [get_alloc_of_gt h _ beyond, get_of_size_le h (Nat.le_of_lt beyond)]

theorem setElements_cases (v : Value) (elements : List Value) : h.setElements v elements = h ∨
    ∃ id kind, h.setElements v elements = h.setKind id kind := by
  unfold setElements
  split
  · exact .inl rfl
  · split
    · exact .inr ⟨_, _, rfl⟩
    · exact .inl rfl

theorem spares_setElements (v : Value) (elements : List Value) :
    h.Spares (h.setElements v elements) := by
  rcases h.setElements_cases v elements with same | ⟨id, kind, changed⟩
  · rw [same]
    exact fun _ => rfl
  · rw [changed]
    exact h.spares_modify id fun _ => rfl

end Heap

/-- A native function leaves the heap alone, or it adds an object, or it changes what an object holds
because of its kind. -/
def NativeResult.Modest (h : Heap) (r : NativeResult) : Prop :=
  ∀ v h', r = .ok (v, h') → h' = h ∨ (∃ kind, h' = (h.allocKind kind).2) ∨
    ∃ id kind, h' = h.setKind id kind

namespace NativeResult

variable {h : Heap}

theorem modest_error (e : NativeError) : Modest h (.error e) := fun _ _ ok => nomatch ok

theorem modest_same (v : Value) : Modest h (.ok (v, h)) := by
  intro _ _ ok
  cases ok
  exact .inl rfl

theorem modest_allocKind (kind : ObjectKind) : Modest h (.ok (h.allocKind kind)) := by
  intro _ _ ok
  cases ok
  exact .inr (.inl ⟨kind, rfl⟩)

theorem modest_setKind (v : Value) (id : ObjectId) (kind : ObjectKind) :
    Modest h (.ok (v, h.setKind id kind)) := by
  intro _ _ ok
  cases ok
  exact .inr (.inr ⟨id, kind, rfl⟩)

end NativeResult

open NativeResult

theorem StringMethod.invoke_modest (m : StringMethod) (h : Heap) (this : Value)
    (args : List Value) : Modest h (m.invoke h this args) := by
  unfold StringMethod.invoke
  split
  · exact modest_error _
  · split
    · exact modest_error _
    · exact modest_same _
    · exact modest_allocKind _

theorem ArrayMethod.invoke_modest (m : ArrayMethod) (h : Heap) (this : Value)
    (args : List Value) : Modest h (m.invoke h this args) := by
  unfold ArrayMethod.invoke
  split
  · exact modest_error _
  · cases m with
    | join => exact modest_same _
    | push =>
      intro v h' ok
      cases ok
      exact (h.setElements_cases _ _).imp_right .inr

theorem MapMethod.invoke_modest (m : MapMethod) (h : Heap) (this : Value) (args : List Value) :
    Modest h (m.invoke h this args) := by
  unfold MapMethod.invoke
  split
  · exact modest_error _
  · cases m with
    | get => exact modest_same _
    | set => exact modest_setKind _ _ _

theorem SetMethod.invoke_modest (m : SetMethod) (h : Heap) (this : Value) (args : List Value) :
    Modest h (m.invoke h this args) := by
  unfold SetMethod.invoke
  split
  · exact modest_error _
  · cases m with
    | add =>
      dsimp only
      split
      · exact modest_same _
      · exact modest_setKind _ _ _
    | values => exact modest_allocKind _

theorem ProcessMethod.invoke_modest (m : ProcessMethod) (h : Heap) : Modest h (m.invoke h) := by
  cases m with
  | exec | execFile | execSync => exact modest_same _
  | spawn | spawnSync => exact modest_allocKind _

theorem HostBehaviour.invoke_modest (b : HostBehaviour) (h : Heap) (this : Value)
    (args : List Value) : Modest h (b.invoke h this args) := by
  cases b with
  | nothing | receiver | firstArgument | argumentCount => exact modest_same _
  | argumentArray => exact modest_allocKind _
  | failing => exact modest_error _

theorem Native.runWithin_modest (h : Heap) (depth : Nat) (n : Native) (this : Value)
    (args : List Value) : Modest h (n.runWithin h depth this args) := by
  induction depth generalizing n this args with
  | zero =>
    cases n with
    | string m => exact m.invoke_modest h this args
    | array m => exact m.invoke_modest h this args
    | map m => exact m.invoke_modest h this args
    | set m => exact m.invoke_modest h this args
    | process m => exact m.invoke_modest h
    | host b => exact b.invoke_modest h this args
    | construct => exact modest_allocKind _
    | unavailable | call | apply => exact modest_error _
  | succ depth ih =>
    cases n with
    | string m => exact m.invoke_modest h this args
    | array m => exact m.invoke_modest h this args
    | map m => exact m.invoke_modest h this args
    | set m => exact m.invoke_modest h this args
    | process m => exact m.invoke_modest h
    | host b => exact b.invoke_modest h this args
    | construct => exact modest_allocKind _
    | unavailable => exact modest_error _
    | call | apply =>
      rw [Native.runWithin]
      split
      · exact modest_error _
      · exact ih _ _ _

/-- What a native function does to the heap. -/
theorem Native.run_heap {n : Native} {h h' : Heap} {this v : Value} {args : List Value}
    (ran : n.run h this args = .ok (v, h')) : h' = h ∨ (∃ kind, h' = (h.allocKind kind).2) ∨
      ∃ id kind, h' = h.setKind id kind :=
  n.runWithin_modest h _ this args v h' ran

/-- The memory grows, and every object has the properties that it had. -/
structure Memory.Spares (m m' : Memory) : Prop extends Grows m m' where
  properties : m.heap.Spares m'.heap

instance : IsPreorder Memory Spares where
  refl m := ⟨.refl m, fun _ => rfl⟩
  trans _ _ _ first second := ⟨first.toGrows.trans second.toGrows,
    fun x => (second.properties x).trans (first.properties x)⟩

theorem Memory.Marks.spares {m m' : Memory} (h : m.Marks m') : m.Spares m' :=
  ⟨h.spreads.toGrows, fun _ => by rw [h.heap]⟩

theorem Memory.admitsRules_spares : AdmitsRules Spares where
  marks _ _ := Marks.spares
  fresh v m := ⟨(admitsRules_spreads.fresh v m).toGrows, fun x => by
    rw [show (MemoryM.wrapFresh v m).2.heap = m.heap from (MemoryM.issues_hold .precise v m).heap]⟩
  elements m v elements owned :=
    ⟨(admitsRules_spreads.elements m v elements owned).toGrows, m.heap.spares_setElements v elements⟩
  runs m native this args output heap bare ran := by
    refine ⟨(admitsRules_spreads.runs m native this args output heap bare ran).toGrows, ?_⟩
    rcases Native.run_heap ran with rfl | ⟨kind, rfl⟩ | ⟨id, kind, rfl⟩
    · exact fun _ => rfl
    · exact m.heap.spares_allocKind kind
    · exact m.heap.spares_modify id fun _ => rfl

theorem MemoryM.spares_wrap (levels : Levels) (v : Value) : Within Spares (wrap levels v) := by
  intro m
  refine ⟨(stacks_wrap levels v m).toGrows, fun x => ?_⟩
  rcases heap_wrap_cases levels v m with ⟨c, grain, id, values, -, -, -, heap⟩ | ⟨heap, -⟩
  · rw [heap]
    exact m.heap.spares_setHeld id _ x
  · rw [heap]

namespace Tracker

theorem spares_propagateCall (c : Call) (result : Value) (levels : Levels) :
    Within Spares (propagateCall c result levels) :=
  within_propagateCall admitsRules_spares c result levels

theorem spares_tagImport (c : Call) (result : Value) :
    Within (Follows Spares) (tagImport c result) := by
  refine .bind_except .get_except fun t => ?_
  dsimp only
  split
  · exact .bind_except (HookM.follows_logEvent _) fun _ => HookM.follows_onMemory (.lift fun m =>
      ⟨(spreads_setImportTag _ _ m).toGrows, m.heap.spares_modify _ fun _ => rfl⟩)
  · exact .pure_except _

end Tracker

end ShadowTaint
