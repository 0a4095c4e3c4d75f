import ShadowTaint.Proofs.Keys
import ShadowTaint.Proofs.Settling
/-!
# What maps and sets hold

Hooks change what a container holds only by wrapping it. One that is tracked as a whole then drops the
shadows of its members, and one that is tracked member by member gives shadows to bare literals; a value
that is already as the container has it stays. Keys are never touched. So a map that was wrapped once holds
the same from then on, until a native function puts something into it.

## Main definitions

- `Grain.Suits`: a container of the grain has the value as it is.
- `Memory.Retains`: maps and sets hold the same, but for values that did not suit them.
- `Memory.AdmitsStripping`, `Memory.AdmitsWrapping`: the steps by which shadows are taken off and put on
  stay within a relation.

## Main statements

- `Memory.AdmitsStripping.openCall`, `Memory.AdmitsWrapping.restoreArguments`: so do the hooks of calls.
- `MemoryM.retains_wrap`, `MemoryM.suits_wrap`: what a container holds after something was wrapped.
-/

namespace ShadowTaint

open Memory

/-- The class of values that the containers of a kind are. -/
def Container.kind : Container → ValueKind
  | .array => .array
  | .map => .map
  | .set => .set

/-- The grain that is configured for a kind of containers. -/
def Levels.grainOf (levels : Levels) (c : Container) : Grain :=
  Policy.grainAt (levels.precision c.kind)

theorem Levels.resolve_kind (levels : Levels) (c : Container) :
    levels.resolve c.kind = .container c (levels.grainOf c) := by
  cases c <;> rfl

theorem Levels.grainOf_eq_precise_iff {levels : Levels} {c : Container} :
    levels.grainOf c = .precise ↔ levels.precision c.kind = .precise := by
  unfold grainOf
  cases levels.precision c.kind <;> simp [Policy.grainAt]

/-- A map or a set has the policy of its kind, wherever it comes from. -/
theorem Levels.policyFor_of_held (levels : Levels) {h : Heap} {c : Container} {id : ObjectId}
    {values : List Value} (keyed : c ≠ .array) (held : h.held? c id = some values) :
    levels.policyFor h (.object id) = .container c (levels.grainOf c) := by
  rw [policyFor, ← levels.resolve_kind]
  congr 1
  rw [Heap.held?] at held
  cases c with
  | array => exact absurd rfl keyed
  | map =>
    rcases kind : (h.get id).kind <;> rw [kind] at held <;> cases held
    simp [ValueKind.of, Value.raw, kind, Container.kind]
  | set =>
    rcases kind : (h.get id).kind <;> rw [kind] at held <;> cases held
    simp [ValueKind.of, Value.raw, kind, Container.kind]

/-- An array has the policy of arrays, if it was not imported. -/
theorem Levels.policyFor_of_array (levels : Levels) {h : Heap} {id : ObjectId} {values : List Value}
    (own : h.importTag? (.object id) = none) (held : h.held? .array id = some values) :
    levels.policyFor h (.object id) = .container .array (levels.grainOf .array) := by
  rw [policyFor, ← levels.resolve_kind]
  congr 1
  rw [Heap.held?] at held
  rcases kind : (h.get id).kind <;> rw [kind] at held <;> cases held
  have lower : ValueKind.ofName (Text.toLower "Array") = .array := by decide +kernel
  simp [ValueKind.of, Value.raw, kind, Container.kind, ValueKind.ofImport?, own, Heap.constructorName,
    lower]

/-- A container of the grain has the value as it is: without a shadow if it is tracked as a whole, and
with one if it is tracked member by member and the value is a literal. -/
def Grain.Suits : Grain → Value → Prop
  | .imprecise, v => v.raw = v
  | .precise, v => v.isBareLiteral = false

/-- The values that suit a container of the grain stayed in their places. Where members are tracked, the
others only got shadows. -/
def Grain.Keeps (grain : Grain) : List Value → List Value → Prop :=
  List.Forall₂ fun v w => (grain.Suits v → w = v) ∧ (grain = .precise → w.key = v.key)

namespace Grain.Keeps

variable {grain : Grain} {vs ws xs : List Value}

theorem refl (grain : Grain) (vs : List Value) : grain.Keeps vs vs :=
  List.forall₂_same.mpr fun _ _ => ⟨fun _ => rfl, fun _ => rfl⟩

theorem trans (first : grain.Keeps vs ws) (second : grain.Keeps ws xs) : grain.Keeps vs xs := by
  induction first generalizing xs with
  | nil => exact second
  | cons head _ ih =>
    cases second with
    | cons head' rest' =>
      refine .cons ⟨fun suits => ?_, fun precise => ?_⟩ (ih rest')
      · have stays := head.1 suits
        rw [head'.1 (by rwa [stays]), stays]
      · rw [head'.2 precise, head.2 precise]

/-- Where all values suit, all stay. -/
theorem eq_of_suits (h : grain.Keeps vs ws) (suits : ∀ v ∈ vs, grain.Suits v) : ws = vs := by
  induction h with
  | nil => rfl
  | cons head _ ih =>
    rw [head.1 (suits _ List.mem_cons_self), ih fun v hv => suits v (List.mem_cons_of_mem _ hv)]

/-- The values are the same keys as before, unless shadows are dropped. -/
theorem keys (h : grain.Keeps vs ws) (suits : grain = .imprecise → ∀ v ∈ vs, grain.Suits v) :
    ws.map Value.key = vs.map Value.key := by
  cases grain with
  | imprecise => rw [h.eq_of_suits (suits rfl)]
  | precise =>
    induction h with
    | nil => rfl
    | cons head _ ih => rw [List.map_cons, List.map_cons, head.2 rfl, ih nofun]

end Grain.Keeps

namespace ObjectKind

variable {k : ObjectKind} {c c' : Container} {values values' values'' : List Value}

/-- What an object holds, it holds as one kind of container. -/
theorem held?_inj (held : k.held? c = some values) (held' : k.held? c' = some values') :
    c = c' ∧ values = values' := by
  cases c <;> cases c' <;> cases k <;> cases held <;> cases held' <;> exact ⟨rfl, rfl⟩

theorem withHeld_withHeld (len : values'.length = values.length) (held : k.held? c = some values) :
    (k.withHeld values').withHeld values'' = k.withHeld values'' := by
  cases c <;> cases k <;> cases held
  · rfl
  · rename_i entries
    rw [List.length_map] at len
    refine congrArg ObjectKind.map (List.ext_getElem ?_ fun i _ _ => ?_)
    · simp only [List.length_zipWith]
      omega
    · simp only [List.getElem_zipWith]
  · rfl

/-- A map has the same keys whatever it holds, and what suits it is found under them. -/
theorem entryUnder?_withHeld {grain : Grain} {entries : List (Value × Value)} {values : List Value}
    {key v : Value} (kept : grain.Keeps (entries.map (·.2)) values)
    (found : entryUnder? key entries = some v) (suits : grain.Suits v) :
    entryUnder? key (List.zipWith (fun e w => (e.1, w)) entries values) = some v := by
  induction entries generalizing values with
  | nil => cases found
  | cons e rest ih =>
    obtain ⟨k, w⟩ := e
    rw [List.map_cons] at kept
    obtain ⟨x, xs, stays, later, rfl⟩ := List.forall₂_cons_left_iff.mp kept
    rw [List.zipWith_cons_cons]
    by_cases here : k.sameKey key = true
    · simp only [entryUnder?, here, if_true] at found ⊢
      cases found
      rw [stays.1 suits]
    · simp only [entryUnder?, here, Bool.false_eq_true, if_false] at found ⊢
      exact ih later found

end ObjectKind

namespace Memory

variable {levels : Levels} {m m' m'' : Memory} {c : Container} {id : ObjectId} {values : List Value}

/-- Maps and sets hold the same as before under the same keys, but for values that did not suit them. -/
def Retains (levels : Levels) (m m' : Memory) : Prop :=
  ∀ c id values, c ≠ .array → m.heap.held? c id = some values → ∃ values',
    (m'.heap.get id).kind = (m.heap.get id).kind.withHeld values' ∧
      (levels.grainOf c).Keeps values values'

theorem Retains.held? (h : m.Retains levels m') (keyed : c ≠ .array)
    (held : m.heap.held? c id = some values) :
    ∃ values', m'.heap.held? c id = some values' ∧ (levels.grainOf c).Keeps values values' := by
  obtain ⟨values', kind, kept⟩ := h c id values keyed held
  refine ⟨values', ?_, kept⟩
  rw [Heap.held?, kind]
  exact ObjectKind.held?_withHeld held kept.length_eq.symm

/-- Maps and sets are the same as before. -/
def SameContents (m m' : Memory) : Prop :=
  ∀ c id values, c ≠ .array → m.heap.held? c id = some values →
    (m'.heap.get id).kind = (m.heap.get id).kind

theorem SameContents.held? (h : m.SameContents m') (keyed : c ≠ .array)
    (held : m.heap.held? c id = some values) : m'.heap.held? c id = some values := by
  rw [Heap.held?, h c id values keyed held]
  exact held

instance : IsPreorder Memory SameContents where
  refl _ _ _ _ _ _ := rfl
  trans _ _ _ first second c id values keyed held :=
    (second c id values keyed (first.held? keyed held)).trans (first c id values keyed held)

theorem SameContents.retains (h : m.SameContents m') : m.Retains levels m' := by
  intro c id values keyed held
  refine ⟨values, ?_, .refl _ values⟩
  rw [h c id values keyed held, ObjectKind.withHeld_held held]

instance (levels : Levels) : IsPreorder Memory (Retains levels) where
  refl m := (refl_of SameContents m).retains
  trans m₁ m₂ m₃ first second := by
    intro c id values keyed held
    obtain ⟨values', kind, kept⟩ := first c id values keyed held
    have held₂ : m₂.heap.held? c id = some values' := by
      rw [Heap.held?, kind]
      exact ObjectKind.held?_withHeld held kept.length_eq.symm
    obtain ⟨values'', kind', kept'⟩ := second c id values' keyed held₂
    refine ⟨values'', ?_, kept.trans kept'⟩
    rw [kind', kind, ObjectKind.withHeld_withHeld kept.length_eq.symm held]

/-- Where all values suit the container, it is the same. -/
theorem Retains.kind_of_suits (h : m.Retains levels m') (keyed : c ≠ .array)
    (held : m.heap.held? c id = some values) (suits : ∀ v ∈ values, (levels.grainOf c).Suits v) :
    (m'.heap.get id).kind = (m.heap.get id).kind := by
  obtain ⟨values', kind, kept⟩ := h c id values keyed held
  rw [kind, kept.eq_of_suits suits, ObjectKind.withHeld_held held]

/-- What suits a map is found under its key. -/
theorem Retains.entryUnder? (h : m.Retains levels m') {entries : List (Value × Value)} {key v : Value}
    (kind : (m.heap.get id).kind = .map entries) (found : ShadowTaint.entryUnder? key entries = some v)
    (suits : (levels.grainOf .map).Suits v) :
    ∃ entries', (m'.heap.get id).kind = .map entries' ∧
      ShadowTaint.entryUnder? key entries' = some v := by
  have held : m.heap.held? .map id = some (entries.map (·.2)) := by rw [Heap.held?, kind]; rfl
  obtain ⟨values', kind', kept⟩ := h .map id _ nofun held
  rw [kind] at kind'
  exact ⟨_, kind', ObjectKind.entryUnder?_withHeld kept found suits⟩

end Memory

namespace MemoryM

variable {levels : Levels} {m : Memory}

/-- A value that suits the container is held as it is. -/
theorem hold_of_suits {grain : Grain} {v : Value} (suits : grain.Suits v) (m : Memory) :
    (hold grain v m).1 = v := by
  cases grain with
  | imprecise =>
    show m.shadow.valueOf v = v
    cases v with
    | shadow handle identity raw => cases suits
    | literal l => rfl
    | object id => rfl
  | precise =>
    cases v with
    | literal l => cases suits
    | object id => rfl
    | shadow handle identity raw => rfl

theorem key_shadow (id : Identity) (raw : Literal) (m : Memory) :
    (shadow id raw m).1.key = (Value.literal raw).key := by
  by_cases wraps : m.shadow.frame.callType.skipsWrapping = true
  · rw [shadow_of_skips wraps]
  · rw [shadow_of_wraps (Bool.eq_false_iff.mpr wraps)]
    rfl

/-- A value that gets a shadow is the same key as before. -/
theorem key_hold (v : Value) (m : Memory) : (hold .precise v m).1.key = v.key := by
  cases v with
  | literal raw => exact key_shadow _ raw _
  | object id => rfl
  | shadow handle identity raw => rfl

theorem keeps_mapM_hold (grain : Grain) (values : List Value) (m : Memory) :
    grain.Keeps values (values.mapM (hold grain) m).1 := by
  induction values generalizing m with
  | nil => exact .nil
  | cons v rest ih =>
    rw [List.mapM_cons]
    refine .cons ⟨fun suits => hold_of_suits suits m, ?_⟩ (ih (hold grain v m).2)
    rintro rfl
    exact key_hold v m

/-- Wrapping changes in a map or a set what does not suit it. -/
theorem retains_wrap (levels : Levels) (v : Value) : Within (Retains levels) (wrap levels v) := by
  intro m
  rcases heap_wrap_cases levels v m with ⟨c, grain, id, values, rfl, policy, held, heap⟩ | ⟨same, -⟩
  · intro c' id' values' keyed held'
    by_cases self : id' = id
    · subst self
      obtain ⟨rfl, rfl⟩ := ObjectKind.held?_inj held held'
      rw [levels.policyFor_of_held keyed held] at policy
      cases policy
      exact ⟨_, by rw [heap, Heap.get_setHeld_self], keeps_mapM_hold _ values m⟩
    · refine ⟨values', ?_, .refl _ _⟩
      rw [heap, Heap.setHeld, Heap.get_modify_ne _ self, ObjectKind.withHeld_held held']
  · exact SameContents.retains fun _ _ _ _ _ => by rw [same]

/-- Storing a property does not change what a map or a set holds. -/
theorem sameContents_setProperty (id : ObjectId) (key : String) (v : Value) :
    Within SameContents (modifyHeap (·.setProperty id key v)) := by
  intro m c id' values keyed held
  show ((m.heap.setProperty id key v).get id').kind = (m.heap.get id').kind
  by_cases self : id' = id
  · subst self
    rw [Heap.setProperty, Heap.get_modify_self (Heap.allocated_of_held held)]
    rw [Heap.held?] at held
    unfold Heap.HeapObject.storeProperty
    split
    · rename_i elements array
      rw [array] at held
      cases c <;> cases held
      exact absurd rfl keyed
    · rfl
  · rw [Heap.setProperty, Heap.get_modify_ne _ self]

theorem suits_hold {grain : Grain} (v : Value) {m : Memory}
    (wraps : m.shadow.frame.callType.skipsWrapping = false) : grain.Suits (hold grain v m).1 := by
  cases grain with
  | imprecise => exact m.shadow.raw_valueOf v
  | precise =>
    cases v with
    | literal raw =>
      obtain ⟨handle, wrapped, -⟩ := lookup_shadow m.shadow.mint.1 raw
        (m := { m with shadow := m.shadow.mint.2 }) wraps
      show (shadow m.shadow.mint.1 raw { m with shadow := m.shadow.mint.2 }).1.isBareLiteral = false
      rw [wrapped]
      rfl
    | object id => rfl
    | shadow handle identity raw => rfl

theorem suits_mapM_hold (grain : Grain) (values : List Value) {m : Memory}
    (wraps : m.shadow.frame.callType.skipsWrapping = false) :
    ∀ w ∈ (values.mapM (hold grain) m).1, grain.Suits w := by
  induction values generalizing m with
  | nil => exact fun _ hw => nomatch hw
  | cons v rest ih =>
    have frame : (hold grain v m).2.shadow.frame = m.shadow.frame := (spreads_hold grain v m).frame
    have later := ih (m := (hold grain v m).2) (by rw [frame, wraps])
    rw [List.mapM_cons]
    intro w hw
    rcases List.mem_cons.mp hw with rfl | hw
    · exact suits_hold v wraps
    · exact later w hw

/-- Wrapping an object leaves the others alone. -/
theorem get_wrap_of_ne (levels : Levels) (m : Memory) {id o : ObjectId} (other : o ≠ id) :
    (wrap levels (.object id) m).2.heap.get o = m.heap.get o := by
  rcases heap_wrap_cases levels (.object id) m with ⟨_, _, _, _, object, -, -, heap⟩ | ⟨heap, -⟩
  · cases object
    rw [heap, Heap.setHeld, Heap.get_modify_ne _ other]
  · rw [heap]

/-- A container that is wrapped settles what it holds. -/
theorem heap_wrap_of_held {c : Container} {grain : Grain} {id : ObjectId} {values : List Value}
    (policy : levels.policyFor m.heap (.object id) = .container c grain)
    (held : m.heap.held? c id = some values) :
    (wrap levels (.object id) m).2.heap = m.heap.setHeld id (values.mapM (hold grain) m).1 := by
  have settled : (wrap levels (.object id) m).2.heap =
      (settle (levels.policyFor m.heap (.object id)) (.object id) m).2.heap := (issues_discard _).heap
  rw [settled, policy]
  rw [settle_of_held rfl held]
  exact congrArg (·.setHeld id (values.mapM (hold grain) m).1)
    (Within.mapM (issues_hold grain) values m).heap

/-- A container that was wrapped holds what suits it, where literals get shadows. -/
theorem suits_wrap {c : Container} {grain : Grain} {id : ObjectId} {values : List Value}
    (policy : levels.policyFor m.heap (.object id) = .container c grain)
    (held : m.heap.held? c id = some values)
    (wraps : m.shadow.frame.callType.skipsWrapping = false) :
    ∃ values', (wrap levels (.object id) m).2.heap.held? c id = some values' ∧
      grain.Keeps values values' ∧ ∀ w ∈ values', grain.Suits w := by
  have kept := keeps_mapM_hold grain values m
  refine ⟨_, ?_, kept, suits_mapM_hold grain values wraps⟩
  rw [heap_wrap_of_held policy held]
  exact Heap.held?_setHeld held kept.length_eq.symm

end MemoryM

/-- The value is bare or its handle is known, so that there is a key for its taint once it is wrapped. -/
def Memory.Tracks (m : Memory) (v : Value) : Prop := v.raw = v ∨ ∃ x, m.shadow.lookup? v = some x

theorem Memory.Tracks.mono {m m' : Memory} {v : Value} (h : m.Tracks v) (grows : m.Grows m') :
    m'.Tracks v :=
  h.imp_right fun ⟨x, known⟩ => ⟨x, grows.lookup? known⟩

namespace MemoryM

variable {levels : Levels} {m : Memory}

theorem tracks_hold (grain : Grain) {v : Value} {m : Memory} (tracks : m.Tracks v)
    (wraps : m.shadow.frame.callType.skipsWrapping = false) : (hold grain v m).2.Tracks (hold grain v m).1 := by
  have grows : m.Grows (hold grain v m).2 := (spreads_hold grain v m).toGrows
  cases grain with
  | imprecise => exact .inl (m.shadow.raw_valueOf v)
  | precise =>
    cases v with
    | literal raw =>
      obtain ⟨handle, wrapped, known⟩ := lookup_shadow m.shadow.mint.1 raw
        (m := { m with shadow := m.shadow.mint.2 }) wraps
      refine .inr ⟨(m.shadow.mint.1, raw), ?_⟩
      show (shadow m.shadow.mint.1 raw { m with shadow := m.shadow.mint.2 }).2.shadow.lookup?
        (shadow m.shadow.mint.1 raw { m with shadow := m.shadow.mint.2 }).1 = _
      rw [wrapped]
      exact known
    | object id => exact .inl rfl
    | shadow handle identity raw => exact tracks.mono grows

theorem tracks_mapM_hold (grain : Grain) (values : List Value) {m : Memory}
    (tracks : ∀ v ∈ values, m.Tracks v) (wraps : m.shadow.frame.callType.skipsWrapping = false) :
    ∀ w ∈ (values.mapM (hold grain) m).1, (values.mapM (hold grain) m).2.Tracks w := by
  induction values generalizing m with
  | nil => exact fun _ hw => nomatch hw
  | cons v rest ih =>
    have spreads := spreads_hold grain v m
    have later := ih (m := (hold grain v m).2)
      (fun w hw => (tracks w (List.mem_cons_of_mem _ hw)).mono spreads.toGrows)
      (by rw [spreads.frame, wraps])
    have grows := Within.mapM (spreads_hold grain) rest (hold grain v m).2
    rw [List.mapM_cons]
    intro w hw
    rcases List.mem_cons.mp hw with rfl | hw
    · exact (tracks_hold grain (tracks v List.mem_cons_self) wraps).mono grows.toGrows
    · exact later w hw

end MemoryM

namespace Memory

/-- Handles stand for the same. -/
def SameHandles (m m' : Memory) : Prop := m'.shadow.wraps = m.shadow.wraps

instance : IsPreorder Memory SameHandles where
  refl _ := rfl
  trans _ _ _ first second := Eq.trans second first

/-- Steps that change neither the heap nor what handles stand for stay within the relation, and so does
storing a property. -/
structure AdmitsStripping (R : Memory → Memory → Prop) : Prop where
  same : ∀ {m m' : Memory}, m'.heap = m.heap → m.SameHandles m' → R m m'
  property : ∀ id key v, Within R (MemoryM.modifyHeap (·.setProperty id key v))

/-- Wrapping stays within the relation as well. -/
structure AdmitsWrapping (levels : Levels) (R : Memory → Memory → Prop) : Prop
    extends AdmitsStripping R where
  wrap : ∀ v, Within R (MemoryM.wrap levels v)

theorem admitsStripping_sameHandles : AdmitsStripping SameHandles where
  same _ handles := handles
  property _ _ _ _ := rfl

theorem admitsStripping_sameContents : AdmitsStripping SameContents where
  same heap _ _ _ _ _ _ := by rw [heap]
  property := MemoryM.sameContents_setProperty

theorem admitsWrapping_retains (levels : Levels) : AdmitsWrapping levels (Retains levels) where
  same heap handles := (admitsStripping_sameContents.same heap handles).retains
  property id key v m := (MemoryM.sameContents_setProperty id key v m).retains
  wrap := MemoryM.retains_wrap levels

open MemoryM

namespace AdmitsStripping

variable {R : Memory → Memory → Prop}

theorem identities (admits : AdmitsStripping R) : AdmitsIdentities R where
  mint _ := admits.same rfl rfl
  frame _ _ := admits.same rfl rfl

theorem takeIdentity (admits : AdmitsStripping R) : Within R takeIdentity := admits.identities.takeIdentity

variable [IsPreorder Memory R] (admits : AdmitsStripping R)
include admits

theorem identityOf (v : Value) : Within R (identityOf v) := admits.identities.identityOf v

theorem reserve (v : Value) : Within R (reserve v) := admits.identities.reserve v

theorem unwrap (v : Value) : Within R (unwrap v) := admits.identities.unwrap v

theorem stripProperties (depth : Nat) (id : ObjectId) (visited : List ObjectId) :
    Within R (stripProperties depth id visited) :=
  within_stripProperties (admits.identities.stripProperty admits.property) depth id visited

theorem unwrapObject (v : Value) : Within R (unwrapObject v) :=
  admits.identities.unwrapObject admits.property v

theorem stripArgument (arg : Value) (kept : Option (ObjectId × Value)) :
    Within R (stripArgument arg kept) :=
  admits.identities.stripArgument admits.property arg kept

theorem expectIdle (site : String) : Within R (CheckedM.expectIdle site) :=
  CheckedM.within_expectIdle admits.identities.discard site

/-- The hook before a call takes shadows off its operands. -/
theorem openCall (c : Call) (native : Bool) (levels : Levels) :
    Within R (Tracker.openCall c native levels) :=
  Tracker.within_openCall admits.identities.discard admits.unwrap
    (admits.identities.prepareArguments admits.property) (fun _ _ _ => admits.same rfl rfl) c native levels

end AdmitsStripping

namespace AdmitsWrapping

variable {R : Memory → Memory → Prop} [IsPreorder Memory R] {levels : Levels}

/-- The hook after a call puts shadows back on the arguments. -/
theorem restoreArguments (admits : AdmitsWrapping levels R) (policy : Policy) (f : Value)
    (args : List Value) : Within R (restoreArguments levels policy f args) :=
  admits.identities.restoreArguments admits.wrap admits.property policy f args

end AdmitsWrapping

end Memory

end ShadowTaint
