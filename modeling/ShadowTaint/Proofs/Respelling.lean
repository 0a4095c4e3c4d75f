import Mathlib.Data.Fintype.Card
import ShadowTaint.Proofs.Methods
import ShadowTaint.Proofs.Rewrapping
import ShadowTaint.Proofs.Settling
/-!
# Texts across the hooks of a call

Before a call of a function of the runtime the shadows are taken off everything that its arguments reach,
and after it they are put back. The text of an array is made of what the array holds, so it has to be said
that both leave texts alone: a shadow carries what it stands for, as far as it was put on the heap by the
tracker, and no store lies outside an array.

A text opens as many arrays as the heap has objects. It does not change with an object more, unless an
array contains itself.

## Main definitions

- `Memory.Rereads`, `Memory.Rewords`: texts are what they were.
- `Heap.Unfolds`: no array that a value reaches contains itself.

## Main statements

- `MemoryM.rereads_prepareArguments`, `MemoryM.rewords_restoreArguments`: before and after a call.
- `Heap.keyText_alloc`: a text does not see another object.
-/

namespace ShadowTaint

open Memory

namespace Heap

theorem raws_iff {es fs : List Value} :
    List.Forall₂ (fun a b : Value => b.raw = a.raw) es fs ↔ fs.map Value.raw = es.map Value.raw := by
  rw [eq_comm, ← List.forall₂_eq_eq_eq, List.forall₂_map_left_iff, List.forall₂_map_right_iff]
  simp only [eq_comm]

/-- The key is the index of an element of an array. -/
def IsElement (h : Heap) (id : ObjectId) (key : String) : Prop :=
  ∃ es i, (h.get id).kind = .array es ∧ Text.readIndex? key = some i

theorem elements?_eq_some {h : Heap} {id : ObjectId} {es : List Value} :
    h.elements? (.object id) = some es ↔ (h.get id).kind = .array es := by
  simp only [elements?, Value.object?]
  cases (h.get id).kind <;> simp

theorem getProperty_of_index {h : Heap} {id : ObjectId} {key : String} {es : List Value} {i : Nat}
    (kind : (h.get id).kind = .array es) (index : Text.readIndex? key = some i) :
    h.getProperty id key = es.getD i .undefined := by
  have other : key ≠ "length" := by
    rintro rfl
    rw [readIndex?_length] at index
    cases index
  rw [getProperty, property_of_array kind, if_neg other, index]

namespace Respells

variable {h h' h'' : Heap} {id : ObjectId} {key : String} {v w : Value}

theorem trans (first : h.Respells h') (second : h'.Respells h'') : h.Respells h'' where
  size := second.size.trans first.size
  function v := (second.function v).trans (first.function v)
  elements v := by
    have one := first.elements v
    have two := second.elements v
    generalize h.elements? v = es, h'.elements? v = fs, h''.elements? v = gs at one two
    cases one with
    | none => exact two
    | some raws =>
      cases two with
      | some raws' => exact .some (raws_iff.mpr ((raws_iff.mp raws').trans (raws_iff.mp raws)))

/-- What is an array now was one before, and it held the same values, shadows put aside. -/
theorem elements_of_some (respells : h.Respells h') {fs : List Value} (array : h'.elements? v = some fs) :
    ∃ es, h.elements? v = some es ∧ fs.map Value.raw = es.map Value.raw := by
  have elements := respells.elements v
  rw [array] at elements
  generalize h.elements? v = found at elements
  cases elements with
  | some raws => exact ⟨_, rfl, raws_iff.mp raws⟩

theorem inside (respells : h.Respells h') (inside : h.Inside id key) : h'.Inside id key := by
  intro fs i kind index
  obtain ⟨es, array, raws⟩ := respells.elements_of_some (elements?_eq_some.mpr kind)
  have length := congrArg List.length raws
  rw [List.length_map, List.length_map] at length
  rw [length]
  exact inside es i (elements?_eq_some.mp array) index

/-- An element has, shadows put aside, the same value. -/
theorem raw_getProperty (respells : h.Respells h') (element : h'.IsElement id key) :
    (h'.getProperty id key).raw = (h.getProperty id key).raw := by
  obtain ⟨fs, i, kind, index⟩ := element
  obtain ⟨es, array, raws⟩ := respells.elements_of_some (elements?_eq_some.mpr kind)
  rw [getProperty_of_index kind index, getProperty_of_index (elements?_eq_some.mp array) index]
  have at_i := congrArg (·[i]?) raws
  simp only [List.getElem?_map] at at_i
  rw [List.getD_eq_getElem?_getD, List.getD_eq_getElem?_getD, ← Option.getD_map Value.raw, at_i,
    Option.getD_map]

end Respells

section Stores

variable {h : Heap} {id : ObjectId} {key : String} {v : Value}

theorem kind_storeProperty (o : HeapObject) (key : String) (v : Value) :
    (HeapObject.storeProperty o key v).kind = o.kind ∨
      ∃ es i, o.kind = .array es ∧ Text.readIndex? key = some i ∧
        (HeapObject.storeProperty o key v).kind = .array (setAt es i v) := by
  unfold HeapObject.storeProperty
  split
  · rename_i es kind
    split
    · rename_i i index
      exact .inr ⟨es, i, kind, index, rfl⟩
    · exact .inl rfl
  · exact .inl rfl

/-- Storing a property again, with or without its shadow, respells the heap. -/
theorem respells_setProperty (inside : h.Inside id key)
    (same : h.IsElement id key → v.raw = (h.getProperty id key).raw) :
    h.Respells (h.setProperty id key v) := by
  have kinds (x : ObjectId) : ((h.setProperty id key v).get x).kind = (h.get x).kind ∨
      ∃ es fs, (h.get x).kind = .array es ∧ fs.map Value.raw = es.map Value.raw ∧
        ((h.setProperty id key v).get x).kind = .array fs := by
    rw [setProperty]
    by_cases here : x = id
    · subst here
      by_cases allocated : x < h.objects.size
      · rw [get_modify_self allocated]
        rcases kind_storeProperty (h.get x) key v with kept | ⟨es, i, kind, index, stored⟩
        · exact .inl kept
        · have bound := inside es i kind index
          refine .inr ⟨es, es.set i v, kind, ?_, by rw [stored, setAt, if_pos bound]⟩
          have raw := same ⟨es, i, kind, index⟩
          rw [getProperty_of_index kind index, List.getD_eq_getElem _ _ bound] at raw
          rw [List.map_set, raw, ← List.getElem_map Value.raw (h := by simpa using bound),
            List.set_getElem_self]
      · have missing := Nat.le_of_not_lt allocated
        rw [get_of_size_le _ missing, get_of_size_le _ (by rwa [size_modify])]
        exact .inl rfl
    · rw [get_modify_ne h here]
      exact .inl rfl
  refine ⟨size_modify h id _, fun w => ?_, fun w => ?_⟩
  · cases w with
    | object x =>
      simp only [function?, Value.object?]
      rcases kinds x with kept | ⟨es, fs, kind, -, kind'⟩
      · rw [kept]
      · rw [kind, kind']
    | _ => rfl
  · cases w with
    | object x =>
      simp only [elements?, Value.object?]
      rcases kinds x with kept | ⟨es, fs, kind, raws, kind'⟩
      · rw [kept]
        exact (Respells.refl h).elements (.object x)
      · rw [kind, kind']
        exact .some (raws_iff.mpr raws)
    | _ => exact .none

end Stores

end Heap

namespace Memory

variable {m m' : Memory}

/-- Texts are what they were, if every shadow on the heap carries what it stands for, and that is so
afterwards. -/
def Rereads (m m' : Memory) : Prop := m.Sound → m'.Sound ∧ m.heap.Respells m'.heap

instance : IsPreorder Memory Rereads where
  refl m := fun sound => ⟨sound, .refl m.heap⟩
  trans _ _ _ first second := fun sound =>
    let one := first sound
    let two := second one.1
    ⟨two.1, one.2.trans two.2⟩

/-- The shadows that an object holds are the tracker's. -/
def SoundAt (m : Memory) (id : ObjectId) : Prop := (m.heap.get id).Holding (·.OwnedBy m.shadow)

theorem SoundAt.of_known {id : ObjectId} (sound : m.SoundAt id) (same : m'.heap.get id = m.heap.get id)
    (known : ∀ (i : Nat) x, m.shadow.wraps[i]? = some x → m'.shadow.wraps[i]? = some x) :
    m'.SoundAt id := by
  unfold SoundAt
  rw [same]
  refine HeapObject.Holding.mono sound fun v owned => ?_
  cases v with
  | shadow handle identity raw => exact known _ _ owned
  | literal l => trivial
  | object o => trivial

theorem SoundAt.setProperty {id : ObjectId} (sound : m.SoundAt id) (key : String) {v : Value}
    (owned : v.OwnedBy m.shadow) : SoundAt { m with heap := m.heap.setProperty id key v } id := by
  show ((m.heap.setProperty id key v).get id).Holding _
  rw [Heap.setProperty]
  by_cases allocated : id < m.heap.objects.size
  · rw [Heap.get_modify_self allocated]
    exact HeapObject.Holding.storeProperty sound (fun _ hv => Value.ownedBy_of_raw hv) key owned
  · rw [Heap.get_of_size_le _ (by rw [Heap.size_modify]; exact Nat.le_of_not_lt allocated)]
    exact HeapObject.holding_empty trivial

/-- Shadows that the tracker put on the heap stay the tracker's, and texts are what they were, if all of them
are, or if arrays are tracked element by element. -/
structure Rewords (levels : Levels) (m m' : Memory) : Prop where
  soundAt : ∀ id, m.SoundAt id → m'.SoundAt id
  respells : levels.precision .array = .precise ∨ m.Sound → m.heap.Respells m'.heap

theorem Rewords.sound {levels : Levels} (rewords : m.Rewords levels m') (sound : m.Sound) : m'.Sound :=
  fun id => rewords.soundAt id (sound id)

instance (levels : Levels) : IsPreorder Memory (Rewords levels) where
  refl m := ⟨fun _ sound => sound, fun _ => .refl m.heap⟩
  trans _ _ _ first second := ⟨fun id sound => second.soundAt id (first.soundAt id sound), fun either =>
    (first.respells either).trans (second.respells (either.imp_right first.sound))⟩

theorem rewords_of_heap {levels : Levels} (heap : m'.heap = m.heap)
    (known : ∀ (i : Nat) x, m.shadow.wraps[i]? = some x → m'.shadow.wraps[i]? = some x) :
    m.Rewords levels m' := by
  refine ⟨fun id sound => sound.of_known (by rw [heap]) known, fun _ => ?_⟩
  rw [heap]
  exact .refl m.heap

theorem rereads_of_heap (heap : m'.heap = m.heap)
    (known : ∀ (i : Nat) x, m.shadow.wraps[i]? = some x → m'.shadow.wraps[i]? = some x) :
    m.Rereads m' := fun sound => by
  refine ⟨sound_of_known heap known sound, ?_⟩
  rw [heap]
  exact .refl m.heap

/-- Storing a property again leaves texts alone. -/
theorem rereads_setProperty (id : ObjectId) {key : String} {v : Value} (inside : m.heap.Inside id key)
    (owned : m.Sound → v.OwnedBy m.shadow)
    (same : m.Sound → m.heap.IsElement id key → v.raw = (m.heap.getProperty id key).raw) :
    m.Rereads { m with heap := m.heap.setProperty id key v } := fun sound =>
  ⟨Heap.Holding.setProperty sound (fun _ hv => Value.ownedBy_of_raw hv) id key (owned sound),
    Heap.respells_setProperty inside (same sound)⟩

/-- A shadow that the tracker put on the heap carries what it stands for. -/
theorem valueOf_of_owned {v : Value} (owned : v.OwnedBy m.shadow) : m.valueOf v = v.raw := by
  cases v with
  | shadow handle identity raw =>
    exact ShadowState.valueOf_of_lookup (v := .shadow handle identity raw) owned
  | literal l => rfl
  | object id => rfl

theorem SoundAt.getProperty {id : ObjectId} (sound : m.SoundAt id) (key : String) :
    (m.heap.getProperty id key).OwnedBy m.shadow :=
  HeapObject.Holding.property sound (fun _ hw => Value.ownedBy_of_raw hw) key

end Memory

namespace MemoryM

section Stripping

theorem rereads_unwrap (v : Value) : Within Rereads (unwrap v) := fun m => by
  obtain ⟨id, -, stacked⟩ := stacks_unwrap v m
  exact rereads_of_heap (issues_unwrap v m).heap stacked.known

/-- A property loses its shadow. -/
theorem rereads_stripProperty {m : Memory} {id : ObjectId} {key : String} (children : List TaintTree)
    (child : Value) (inside : m.heap.Inside id key)
    (same : m.Sound → m.heap.IsElement id key → m.valueOf child = (m.heap.getProperty id key).raw) :
    m.Rereads (stripProperty id key children child m).2 := by
  have strip : (stripProperty id key children child m).2 = { (identityOf child m).2 with
      heap := (identityOf child m).2.heap.setProperty id key ((identityOf child m).2.valueOf child) } := rfl
  have heap := (issues_identityOf child m).heap
  have handles : m.SameHandles (identityOf child m).2 := admitsStripping_sameHandles.identityOf child m
  have first : m.Rereads (identityOf child m).2 :=
    rereads_of_heap heap (spreads_identityOf child m).known
  have raw : (m.valueOf child).raw = m.valueOf child := m.shadow.raw_valueOf child
  rw [strip, valueOf_of_wraps handles]
  refine trans_of Rereads first (rereads_setProperty id (by rwa [heap]) (fun _ => Value.ownedBy_of_raw raw) ?_)
  intro sound element
  rw [heap] at element ⊢
  rw [raw]
  exact same (sound_of_known heap.symm (fun i x known => by rwa [← handles]) sound) element

/-- Shadows are taken off along keys that lie inside an object. -/
theorem rereads_foldlM {σ : Type} {f : σ → String → MemoryM σ} {id : ObjectId} (keys : List String)
    (step : ∀ acc key (m : Memory), m.heap.Inside id key → m.Rereads (f acc key m).2) (acc : σ) (m : Memory)
    (inside : ∀ key ∈ keys, m.heap.Inside id key) : m.Rereads (keys.foldlM f acc m).2 := by
  intro sound
  induction keys generalizing acc m with
  | nil => exact ⟨sound, .refl m.heap⟩
  | cons key rest ih =>
    rw [List.foldlM_cons]
    obtain ⟨sound₁, respells₁⟩ := step acc key m (inside key List.mem_cons_self) sound
    obtain ⟨sound₂, respells₂⟩ := ih (f acc key m).1 (f acc key m).2
      (fun key mem => respells₁.inside (inside key (List.mem_cons_of_mem _ mem))) sound₁
    exact ⟨sound₂, respells₁.trans respells₂⟩

/-- By induction on how many levels down the walk may go. -/
theorem rereads_stripProperties (depth : Nat) (id : ObjectId) (visited : List ObjectId) :
    Within Rereads (stripProperties depth id visited) := by
  induction depth generalizing id visited with
  | zero => exact fun m => refl_of Rereads m
  | succ depth ih =>
    intro m
    rw [stripProperties]
    refine rereads_foldlM (m.heap.ownKeys id) ?_ _ m fun key own => Heap.inside_of_mem_ownKeys own
    rintro ⟨trees, visited⟩ key m' inside
    have shown (sound : m'.Sound) : m'.valueOf (m'.heap.getProperty id key) = (m'.heap.getProperty id key).raw :=
      valueOf_of_owned (SoundAt.getProperty (sound id) key)
    dsimp only
    rw [bind_apply, get_apply]
    dsimp only
    rcases object : m'.objectOf? (m'.heap.getProperty id key) with _ | child
    · exact rereads_stripProperty [] _ inside fun sound _ => shown sound
    · dsimp only
      by_cases seen : child ∈ visited
      · rw [if_pos seen]
        exact refl_of Rereads m'
      · rw [if_neg seen]
        intro sound
        -- while the level below is worked off, the property goes on holding what it held
        obtain ⟨sound₁, respells₁⟩ := ih child (child :: visited) m' sound
        have handles : m'.SameHandles (stripProperties depth child (child :: visited) m').2 :=
          admitsStripping_sameHandles.stripProperties _ _ _ m'
        obtain ⟨sound₂, respells₂⟩ := rereads_stripProperty
          (stripProperties depth child (child :: visited) m').1.1 (m'.heap.getProperty id key)
          (respells₁.inside inside) (fun _ element => by
            rw [valueOf_of_wraps handles, shown sound, respells₁.raw_getProperty element]) sound₁
        exact ⟨sound₂, respells₁.trans respells₂⟩

theorem rereads_unwrapObject (v : Value) : Within Rereads (unwrapObject v) := by
  intro m
  unfold unwrapObject
  rw [bind_apply, get_apply]
  dsimp only
  rcases m.objectOf? v with _ | id
  · exact rereads_unwrap v m
  · exact trans_of Rereads (rereads_stripProperties _ id [id] m) (rereads_unwrap v _)

/-- The value of a descriptor is put back as it was. -/
theorem rereads_stripArgument (arg : Value) {kept : Option (ObjectId × Value)} {m : Memory}
    (owned : ∀ id v, kept = some (id, v) → m.Sound → v.OwnedBy m.shadow) :
    m.Rereads (stripArgument arg kept m).2 := by
  have stripped := rereads_unwrapObject arg m
  rcases kept with _ | ⟨id, v⟩
  · exact stripped
  · have named : Text.readIndex? "value" = none := by decide +kernel
    have grows : m.Grows (unwrapObject arg m).2 := by
      obtain ⟨_, -, stacked⟩ := stacks_unwrapObject arg m
      exact stacked.toGrows
    intro sound
    obtain ⟨sound₁, respells₁⟩ := stripped sound
    obtain ⟨sound₂, respells₂⟩ := rereads_setProperty id (Heap.inside_of_name named)
      (fun _ => grows.ownedBy (owned id v rfl sound)) (fun _ element => by
        obtain ⟨_, _, -, index⟩ := element
        rw [named] at index
        cases index) sound₁
    exact ⟨sound₂, respells₁.trans respells₂⟩

theorem rereads_stripArguments (f : Value) (args : List Value) : Within Rereads (stripArguments f args) := by
  refine .bind .get fun m => .bind (.mapM (fun p => ?_) _) fun stripped =>
    .bind (fun m => rereads_of_heap rfl fun _ _ known => known) fun _ => .pure _
  intro m'
  refine rereads_stripArgument (m := m') p.1 fun id v kept sound => ?_
  split at kept
  · exact descriptorValue_owned kept sound
  · cases kept

theorem rereads_reserve (v : Value) : Within Rereads (reserve v) := rereads_unwrap v

/-- Before a call of a function of the runtime texts stay what they are. -/
theorem rereads_prepareArguments (policy : Policy) (f : Value) (args : List Value) :
    Within Rereads (prepareArguments policy f args) :=
  within_prepareArguments rereads_reserve rereads_unwrap rereads_stripArguments policy f args

open Tracker in
/-- The hook before a call leaves texts what they are. -/
theorem rereads_openCall (c : Call) (native : Bool) (levels : Levels) :
    Within Rereads (openCall c native levels) := by
  have discards : Within Rereads discard := fun m =>
    have told := retells_discard m
    rereads_of_heap told.heap fun i x known => by rwa [told.wraps]
  exact within_openCall discards rereads_unwrap rereads_prepareArguments
    (fun _ _ _ => rereads_of_heap rfl fun _ _ known => known) c native levels

end Stripping

section Restoring

variable (levels : Levels)

theorem grain_of_array {levels : Levels} {kind : ValueKind} {grain : Grain}
    (resolved : levels.resolve kind = .container .array grain) : grain = levels.grainOf .array := by
  cases kind with
  | array =>
    rw [show levels.resolve .array = _ from levels.resolve_kind .array] at resolved
    cases resolved
    rfl
  | _ =>
    unfold Levels.resolve at resolved
    generalize levels.precision _ = level at resolved
    cases level <;> simp [Policy.registered?] at resolved

/-- A literal that gets a shadow where it stands goes on standing for itself. -/
theorem raws_mapM_hold_precise (values : List Value) (m : Memory) :
    List.Forall₂ (fun a b => b.raw = a.raw) values (values.mapM (hold .precise) m).1 := by
  induction values generalizing m with
  | nil => exact .nil
  | cons v rest ih =>
    rw [List.mapM_cons]
    refine .cons ?_ (ih (hold .precise v m).2)
    cases v with
    | literal raw => exact raw_shadow _ raw _
    | object id => rfl
    | shadow handle identity raw => rfl

/-- What a container holds after it was settled are shadows of the tracker, if it held no others before. -/
theorem soundAt_settle (policy : Policy) (v : Value) (m : Memory) (other : ObjectId)
    (sound : m.SoundAt other) : (settle policy v m).2.SoundAt other := by
  rcases settle_cases policy v m with ⟨c, grain, id, values, -, -, held, settled⟩ | ⟨same, -⟩
  · have spreads := spreads_hold grain
    have heap := (Within.mapM (issues_hold grain) values m).heap
    have after : (values.mapM (hold grain) m).2.SoundAt other :=
      sound.of_known (by rw [heap]) (Within.mapM spreads values m).known
    rw [settled]
    show ((values.mapM (hold grain) m).2.heap.setHeld id (values.mapM (hold grain) m).1).get other |>.Holding _
    by_cases here : other = id
    · subst here
      rw [Heap.get_setHeld_self]
      have owned := ownedBy_mapM (fun v => (spreads v).keeps.grows) (fun v m => ownedBy_hold grain) values m
        (ObjectKind.Holding.held sound.kind held)
      exact ⟨after.kind.withHeld owned, after.properties⟩
    · rw [Heap.setHeld, Heap.get_modify_ne _ here]
      exact after
  · rw [same]
    exact sound

theorem soundAt_wrap (v : Value) (m : Memory) (id : ObjectId) (sound : m.SoundAt id) :
    (wrap levels v m).2.SoundAt id := by
  have composite (policy : Policy) : (discard (settle policy v m).2).2.SoundAt id := by
    refine (soundAt_settle policy v m id sound).of_known ?_ (stacks_discard (settle policy v m).2).known
    rw [(issues_discard (settle policy v m).2).heap]
  cases v with
  | literal raw =>
    have issued : Within Issues (wrap levels (.literal raw)) :=
      .bind issues_takeIdentity fun id => issues_shadow id raw
    exact sound.of_known (by rw [(issued m).heap]) (stacks_wrap levels (.literal raw) m).known
  | object o => exact composite _
  | shadow handle identity raw => exact composite _

/-- Wrapping an array that is tracked element by element changes no text, whatever stands on the heap. -/
theorem rewords_wrap (v : Value) : Within (Rewords levels) (wrap levels v) := by
  intro m
  refine ⟨soundAt_wrap levels v m, fun either => ?_⟩
  rcases either with precise | sound
  · rcases heap_wrap_cases levels v m with ⟨c, grain, id, values, -, policy, held, heap⟩ | ⟨same, -⟩
    · rw [heap]
      refine Heap.respells_setHeld held ?_
      rintro rfl
      obtain rfl : grain = .precise := by
        rw [grain_of_array policy, Levels.grainOf_eq_precise_iff]
        exact precise
      exact raws_mapM_hold_precise values m
    · rw [same]
      exact .refl m.heap
  · exact respells_wrap levels v sound

/-- Wrapping puts on a shadow, and nothing else. -/
theorem raw_wrap (v : Value) (m : Memory) : (wrap levels v m).1.raw = v.raw := by
  cases v with
  | literal raw =>
    rw [wrap_bare]
    exact raw_shadow _ raw _
  | object id => rw [wrap_of_not_bare levels rfl]
  | shadow handle identity raw => rw [wrap_of_not_bare levels rfl]

mutual

theorem rewords_wrapTree (id : ObjectId) : ∀ tree : TaintTree, Within (Rewords levels) (wrapTree levels id tree)
  | ⟨key, identity, children⟩ => by
    intro m
    by_cases own : m.heap.hasOwnKey id key = true
    · have inside := Heap.inside_of_hasOwnKey own
      obtain ⟨w, m₁, run⟩ : ∃ w m₁, wrap levels (m.heap.getProperty id key)
        { m with shadow := m.shadow.push identity } = (w, m₁) := ⟨_, _, rfl⟩
      have raw := raw_wrap levels (m.heap.getProperty id key) { m with shadow := m.shadow.push identity }
      have owned (sound : m.SoundAt id) := ownedBy_wrap levels
        (m := { m with shadow := m.shadow.push identity })
        (sound.getProperty key)
      have wrapped := rewords_wrap levels (m.heap.getProperty id key)
        { m with shadow := m.shadow.push identity }
      rw [run] at raw owned wrapped
      have first : m.Rewords levels m₁ :=
        trans_of (Rewords levels) (rewords_of_heap rfl fun _ _ known => known :
          m.Rewords levels { m with shadow := m.shadow.push identity }) wrapped
      -- what is stored in the end is the property as it was, with a shadow if it is a literal
      have put {m₂ : Memory} (before : m.Rewords levels m₂) (owned : m.SoundAt id → w.OwnedBy m₂.shadow) :
          m.Rewords levels { m₂ with heap := m₂.heap.setProperty id key w } := by
        refine ⟨fun other sound => ?_, fun either => ?_⟩
        · have after := before.soundAt other sound
          by_cases here : other = id
          · subst here
            exact after.setProperty key (owned sound)
          · exact after.of_known (Heap.get_modify_ne _ here _) fun _ _ known => known
        · have respells := before.respells either
          refine respells.trans (Heap.respells_setProperty (respells.inside inside) fun element => ?_)
          rw [respells.raw_getProperty element]
          exact raw
      rcases object : w.object? with _ | child
      · rw [wrapTree_of_literal own run object]
        exact put first owned
      · rw [wrapTree_of_object own run object]
        exact put (trans_of (Rewords levels) first (rewords_wrapTrees child children m₁))
          fun _ => Value.ownedBy_of_object object
    · rw [wrapTree_of_missing levels identity children own]
      exact refl_of (Rewords levels) m

theorem rewords_wrapTrees (id : ObjectId) :
    ∀ trees : List TaintTree, Within (Rewords levels) (wrapTrees levels id trees)
  | [] => by
    rw [wrapTrees]
    exact .pure _
  | tree :: rest => by
    rw [wrapTrees]
    exact .bind (rewords_wrapTree id tree) fun _ => rewords_wrapTrees id rest

end

/-- After a call of a function of the runtime texts stay what they are. -/
theorem rewords_restoreArguments (policy : Policy) (f : Value) (args : List Value) :
    Within (Rewords levels) (restoreArguments levels policy f args) :=
  within_restoreArguments (rewords_wrap levels) (rewords_wrapTrees levels) policy f args

end Restoring

end MemoryM

namespace Heap

section Unfolding

variable {h h' : Heap} {v w : Value} {n k : Nat}

/-- The value is no object, or one that lies on the heap. -/
def Allocated (h : Heap) (v : Value) : Prop := ∀ id, v.object? = some id → id < h.objects.size

/-- Arrays are nested in the value at most so deep, and all of it lies on the heap. -/
def UnfoldsWithin (h : Heap) : Nat → Value → Prop
  | 0, v => h.Allocated v ∧ h.elements? v = none
  | depth + 1, v => h.Allocated v ∧ ∀ es, h.elements? v = some es → ∀ e ∈ es, UnfoldsWithin h depth e

/-- No array that the value reaches contains itself, and all of it lies on the heap. -/
def Unfolds (h : Heap) (v : Value) : Prop := ∃ depth, h.UnfoldsWithin depth v

theorem unfolds_of_plain (allocated : h.Allocated v) (plain : h.elements? v = none) : h.Unfolds v :=
  ⟨0, allocated, plain⟩

theorem UnfoldsWithin.mono (unfolds : h.UnfoldsWithin n v) (le : n ≤ k) : h.UnfoldsWithin k v := by
  induction n generalizing v k with
  | zero =>
    cases k with
    | zero => exact unfolds
    | succ k =>
      refine ⟨unfolds.1, fun es array => ?_⟩
      rw [unfolds.2] at array
      cases array
  | succ n ih =>
    cases k with
    | zero => omega
    | succ k =>
      exact ⟨unfolds.1, fun es array e mem => ih (unfolds.2 es array e mem) (by omega)⟩

section Growing

variable (same : ∀ id < h.objects.size, h'.get id = h.get id)
include same

theorem elements?_of_allocated (allocated : h.Allocated v) : h'.elements? v = h.elements? v := by
  cases v with
  | object id =>
    simp only [elements?, Value.object?]
    rw [same id (allocated id rfl)]
  | _ => rfl

theorem plainKeyText_of_allocated (allocated : h.Allocated v) : h'.plainKeyText v = h.plainKeyText v := by
  cases v with
  | object id =>
    simp only [plainKeyText, function?, Value.object?]
    rw [same id (allocated id rfl)]
  | _ => rfl

/-- The text of a value does not change with objects that are added to the heap, and it makes no difference
to open more arrays than there are in the value. -/
theorem keyTextWithin_of_unfolds (unfolds : h.UnfoldsWithin n v) (le : n ≤ k) :
    h'.keyTextWithin k v = h.keyTextWithin n v := by
  have plainly (k n : Nat) {v : Value} (allocated : h.Allocated v) (plain : h.elements? v = none) :
      h'.keyTextWithin k v = h.keyTextWithin n v := by
    have plain' := (elements?_of_allocated same allocated).trans plain
    have text := plainKeyText_of_allocated same allocated
    cases k <;> cases n <;> simp [keyTextWithin, plain, plain', text]
  induction n generalizing v k with
  | zero => exact plainly k 0 unfolds.1 unfolds.2
  | succ n ih =>
    rcases array : h.elements? v with _ | es
    · exact plainly k (n + 1) unfolds.1 array
    · cases k with
      | zero => omega
      | succ k =>
        rw [keyTextWithin, keyTextWithin, elements?_of_allocated same unfolds.1, array]
        refine congrArg (String.intercalate ",") (List.map_congr_left fun e mem => ?_)
        rw [ih (unfolds.2 es array e mem) (by omega)]

end Growing

/-- Arrays are nested in the value so deep, and no less. -/
def UnfoldsAt (h : Heap) (n : Nat) (v : Value) : Prop := h.UnfoldsWithin n v ∧ ∀ k < n, ¬ h.UnfoldsWithin k v

theorem Unfolds.exists_unfoldsAt (unfolds : h.Unfolds v) : ∃ n, h.UnfoldsAt n v := by
  classical
  exact ⟨Nat.find unfolds, Nat.find_spec unfolds, fun _ less => Nat.find_min unfolds less⟩

theorem UnfoldsAt.eq (first : h.UnfoldsAt n v) (second : h.UnfoldsAt k v) : n = k := by
  rcases Nat.lt_trichotomy n k with less | same | more
  · exact absurd first.1 (second.2 n less)
  · exact same
  · exact absurd second.1 (first.2 k more)

/-- A value that has to be opened is an array of the heap. -/
theorem UnfoldsAt.array (unfolds : h.UnfoldsAt (n + 1) v) :
    ∃ id es, v = .object id ∧ id < h.objects.size ∧ h.elements? v = some es := by
  rcases array : h.elements? v with _ | es
  · exact absurd ⟨unfolds.1.1, array⟩ (unfolds.2 0 (by omega))
  · cases v with
    | object id => exact ⟨id, es, rfl, unfolds.1.1 id rfl, rfl⟩
    | literal l => cases array
    | shadow handle identity raw => cases array

/-- In an array that is nested more than one level deep lies one that is nested one level less. -/
theorem UnfoldsAt.pred (unfolds : h.UnfoldsAt (n + 2) v) : ∃ e, h.UnfoldsAt (n + 1) e := by
  obtain ⟨id, es, -, -, array⟩ := unfolds.array
  -- otherwise the array itself would be nested one level less
  by_contra shallow
  refine unfolds.2 (n + 1) (by omega) ⟨unfolds.1.1, fun es' array' e mem => ?_⟩
  have within := unfolds.1.2 es' array' e mem
  by_contra deep
  refine shallow ⟨e, within, fun k less unfolds' => deep (unfolds'.mono (by omega))⟩

theorem UnfoldsAt.exists_of_le (unfolds : h.UnfoldsAt n v) (pos : 0 < k) (le : k ≤ n) :
    ∃ w, h.UnfoldsAt k w := by
  induction n generalizing v with
  | zero => omega
  | succ n ih =>
    by_cases top : k = n + 1
    · exact ⟨v, top ▸ unfolds⟩
    · obtain ⟨n, rfl⟩ := Nat.exists_eq_succ_of_ne_zero (show n ≠ 0 by omega)
      obtain ⟨e, below⟩ := unfolds.pred
      exact ih below (by omega)

/-- Arrays that do not contain themselves are nested no deeper than there are objects: on each level there
is another one. -/
theorem UnfoldsAt.le_size (unfolds : h.UnfoldsAt n v) : n ≤ h.objects.size := by
  have level (i : Fin n) : ∃ id : Fin h.objects.size, h.UnfoldsAt (i + 1) (.object id) := by
    obtain ⟨w, there⟩ := unfolds.exists_of_le (k := i + 1) (by omega) (by omega)
    obtain ⟨id, es, rfl, bound, -⟩ := there.array
    exact ⟨⟨id, bound⟩, there⟩
  choose array there using level
  have injective : Function.Injective array := fun i j same => by
    have depths := (there i).eq (same ▸ there j)
    exact Fin.ext (by omega)
  simpa using Fintype.card_le_of_injective array injective

/-- The text of a value does not see another object. -/
theorem keyText_alloc (unfolds : h.Unfolds v) (o : HeapObject) : (h.alloc o).2.keyText v = h.keyText v := by
  obtain ⟨n, least⟩ := unfolds.exists_unfoldsAt
  have within := least.1.mono least.le_size
  refine keyTextWithin_of_unfolds (fun id bound => get_alloc_of_lt h o bound) within ?_
  simp [alloc]

end Unfolding

end Heap

end ShadowTaint
