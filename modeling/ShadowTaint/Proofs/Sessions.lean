import ShadowTaint.Proofs.Stranding
/-!
# What shadows stand for

A host calls hooks in any order, whatever becomes of them, and in between it changes the heap. It has
bare values, the values that hooks have returned, and the values on the heap, and it makes up no
shadow of its own. Then every shadow stands for what it carries as long as no refused store strands
shadows on the heap, and no longer.

## Main definitions

- `Session`: a tracker and the values that its hooks have returned.
- `Session.Resolves`: every shadow that was returned or lies on the heap stands for what it carries.
- `Session.Honest`, `Session.Spared`: the host makes up no shadow; no store strands shadows.

## Main statements

- `Session.resolves_iff`: every shadow resolves in every state of a run exactly if the run is spared.
-/

namespace ShadowTaint

open Memory

/-- The object holds the value because of its kind. -/
def ObjectKind.Holds (v : Value) : ObjectKind → Prop
  | .array elements => v ∈ elements
  | .map entries => ∃ e ∈ entries, e.1 = v ∨ e.2 = v
  | .set members => v ∈ members
  | _ => False

/-- The value lies on the heap: in a property, as an element of an array, as a key or a value of a
map, or as a member of a set. -/
def Heap.Contains (h : Heap) (v : Value) : Prop :=
  ∃ id, (h.get id).kind.Holds v ∨ ∃ e ∈ (h.get id).properties.entries, e.2 = v

theorem ObjectKind.holding_iff {P : Value → Prop} {k : ObjectKind} :
    k.Holding P ↔ ∀ v, k.Holds v → P v := by
  cases k with
  | map entries =>
    refine ⟨fun h v ⟨e, he, held⟩ => ?_, fun h e he => ⟨h _ ⟨e, he, .inl rfl⟩, h _ ⟨e, he, .inr rfl⟩⟩⟩
    rcases held with rfl | rfl
    · exact (h e he).1
    · exact (h e he).2
  | array elements => exact .rfl
  | set members => exact .rfl
  | _ => exact iff_of_true trivial fun _ impossible => impossible.elim

/-- What all values on the heap have is what each value that lies there has. -/
theorem Heap.holding_iff {P : Value → Prop} {h : Heap} : h.Holding P ↔ ∀ v, h.Contains v → P v := by
  constructor
  · rintro holding v ⟨id, held | ⟨e, he, rfl⟩⟩
    · exact ObjectKind.holding_iff.mp (holding id).kind v held
    · exact (holding id).properties e he
  · intro all id
    exact ⟨ObjectKind.holding_iff.mpr fun v held => all v ⟨id, .inl held⟩,
      fun e he => all e.2 ⟨id, .inr ⟨e, he, rfl⟩⟩⟩

/-- The ghost functions come to the heap as objects. -/
theorem Ghosts.holding_install {P : Value → Prop} (bare : ∀ v : Value, v.raw = v → P v) (g : Ghosts)
    {h : Heap} (holding : h.Holding P) : (g.install h).Holding P := by
  unfold install
  induction (g.declared.map Ghost.name).mergeSort (fun a b => decide (a ≤ b)) generalizing h with
  | nil => exact holding
  | cons name rest ih =>
    have kind : ObjectKind.Holding P (.function { name }) := trivial
    exact ih (Heap.Holding.setProperty (holding.allocKind kind) bare _ _ (bare _ rfl))

/-- The values that a hook returns; one that fails returns none. -/
def Hook.returned (h : Hook) (t : Tracker) : List Value :=
  match (h.run t).1 with
  | .ok vs => vs
  | .error _ => []

/-- What happens in a run: a hook is called, or the host leaves another heap behind. -/
inductive Event where
  | hook (h : Hook)
  | host (heap : Heap)

/-- The call that an event begins. -/
def Event.call? : Event → Option Call
  | .hook (.callPre c) => some c
  | _ => none

/-- A tracker, and the values that its hooks have returned to the host. -/
structure Session where
  tracker : Tracker
  given : List Value

namespace Session

/-- The beginning of a run. -/
def start (settings : Settings) (heap : Heap) : Session := ⟨.start settings heap, []⟩

/-- The session after an event. -/
def after (s : Session) : Event → Session
  | .hook h => ⟨(h.run s.tracker).2, h.returned s.tracker ++ s.given⟩
  | .host heap => ⟨{ s.tracker with memory := { s.tracker.memory with heap } }, s.given⟩

/-- The session after several events. -/
def run (s : Session) (events : List Event) : Session := events.foldl after s

theorem settings_after (s : Session) (e : Event) :
    (s.after e).tracker.settings = s.tracker.settings := by
  cases e with
  | hook h => exact (h.follows s.tracker).settings
  | host heap => rfl

theorem settings_run {s : Session} (events : List Event) :
    (s.run events).tracker.settings = s.tracker.settings := by
  induction events generalizing s with
  | nil => rfl
  | cons e rest ih => exact (ih (s := s.after e)).trans (s.settings_after e)

/-- The host has the value: it is bare, a hook has returned it, or it lies on the heap. -/
def Has (s : Session) (v : Value) : Prop :=
  v.raw = v ∨ v ∈ s.given ∨ s.tracker.memory.heap.Contains v

/-- The host passes to a hook, or stores on the heap, only what it has. -/
def Allows (s : Session) : Event → Prop
  | .hook h => ∀ v ∈ h.operands, s.Has v
  | .host heap => ∀ v, heap.Contains v → s.Has v

/-- A refused store strands shadows on the heap. -/
def Strands (s : Session) : Event → Prop
  | .hook h => h.Strands s.tracker
  | .host _ => False

/-- Every shadow that lies on the heap or was returned has a handle which stands for the identity and
the literal that the shadow carries. -/
structure Resolves (s : Session) : Prop where
  stored : ∀ v, s.tracker.memory.heap.Contains v → v.OwnedBy s.tracker.memory.shadow
  returned : ∀ v ∈ s.given, v.OwnedBy s.tracker.memory.shadow

/-- The host makes up no shadow in the whole run. -/
def Honest (s : Session) : List Event → Prop
  | [] => True
  | e :: rest => s.Allows e ∧ (s.after e).Honest rest

/-- No store strands shadows in the whole run. -/
def Spared (s : Session) : List Event → Prop
  | [] => True
  | e :: rest => ¬ s.Strands e ∧ (s.after e).Spared rest

/-- Every shadow resolves at the beginning and after each event of the run. -/
def AlwaysResolves (s : Session) : List Event → Prop
  | [] => s.Resolves
  | e :: rest => s.Resolves ∧ (s.after e).AlwaysResolves rest

/-- The session has the property at the beginning and after each event of the run. -/
def Always (P : Session → Prop) (s : Session) : List Event → Prop
  | [] => P s
  | e :: rest => P s ∧ (s.after e).Always P rest

/-- No event of the run is of the kind. -/
def Avoids (Q : Session → Event → Prop) (s : Session) : List Event → Prop
  | [] => True
  | e :: rest => ¬ Q s e ∧ (s.after e).Avoids Q rest

instance decidableAvoids (Q : Session → Event → Prop) [∀ s e, Decidable (Q s e)] (s : Session) :
    (events : List Event) → Decidable (s.Avoids Q events)
  | [] => isTrue trivial
  | e :: rest =>
    have := decidableAvoids Q (s.after e) rest
    inferInstanceAs (Decidable (_ ∧ _))

variable {s : Session}

theorem Resolves.sound (h : s.Resolves) : s.tracker.memory.Sound := Heap.holding_iff.mpr h.stored

theorem Resolves.has (h : s.Resolves) {v : Value} (has : s.Has v) :
    v.OwnedBy s.tracker.memory.shadow := by
  rcases has with bare | given | stored
  · exact Value.ownedBy_of_raw bare
  · exact h.returned v given
  · exact h.stored v stored

theorem honest_append {events events' : List Event} :
    s.Honest (events ++ events') ↔ s.Honest events ∧ (s.run events).Honest events' := by
  induction events generalizing s with
  | nil => exact ⟨fun h => ⟨trivial, h⟩, fun h => h.2⟩
  | cons e rest ih =>
    show _ ∧ (s.after e).Honest (rest ++ events') ↔ _
    rw [ih, ← and_assoc]
    rfl

section Events

variable {P : Session → Prop} {Q : Session → Event → Prop}

theorem holds_of_always {events : List Event} (always : s.Always P events) : P s := by
  cases events with
  | nil => exact always
  | cons e rest => exact always.1

/-- What is kept by every event that is not of the kind holds all the time in a run without such
events. -/
theorem always_of_avoids (keeps : ∀ s e, P s → ¬ Q s e → P (s.after e)) {events : List Event}
    (init : P s) (avoids : s.Avoids Q events) : s.Always P events := by
  induction events generalizing s with
  | nil => exact init
  | cons e rest ih => exact ⟨init, ih (keeps s e init avoids.1) avoids.2⟩

/-- What is ended by every event of the kind holds all the time only in a run without such events. -/
theorem avoids_of_always (ends : ∀ s e, P s → Q s e → ¬ P (s.after e)) {events : List Event}
    (always : s.Always P events) : s.Avoids Q events := by
  induction events generalizing s with
  | nil => trivial
  | cons e rest ih =>
    exact ⟨fun ended => ends s e always.1 ended (holds_of_always always.2), ih always.2⟩

end Events

theorem mem_given_after {v : Value} (h : v ∈ s.given) (e : Event) : v ∈ (s.after e).given := by
  cases e with
  | hook hook => exact List.mem_append_right _ h
  | host heap => exact h

/-- What an event returns resolves, and so does what was returned before, even if a store is
refused. -/
theorem Resolves.returned_after (h : s.Resolves) {e : Event} (allows : s.Allows e) :
    ∀ v ∈ (s.after e).given, v.OwnedBy (s.after e).tracker.memory.shadow := by
  cases e with
  | host heap => exact h.returned
  | hook hook =>
    have grows := (hook.follows s.tracker).memory
    intro v hv
    rcases List.mem_append.mp hv with now | before
    · obtain ⟨r, t', run⟩ : ∃ r t', hook.run s.tracker = (r, t') := ⟨_, _, rfl⟩
      rw [Hook.returned, run] at now
      show v.OwnedBy (hook.run s.tracker).2.memory.shadow
      rw [run]
      cases r with
      | ok vs => exact hook.yields_owned _ vs t' (fun w hw => h.has (allows w hw)) run v now
      | error fault => cases now
    · exact grows.ownedBy (h.returned v before)

/-- After one event every shadow resolves still, unless the event strands shadows. -/
theorem Resolves.after_iff (h : s.Resolves) {e : Event} (allows : s.Allows e) :
    (s.after e).Resolves ↔ ¬ s.Strands e := by
  have returned := h.returned_after allows
  cases e with
  | host heap =>
    exact iff_of_true ⟨fun v hv => h.has (allows v hv), returned⟩ fun impossible => impossible
  | hook hook =>
    show _ ↔ ¬ hook.Strands s.tracker
    rw [← hook.sound_iff h.sound]
    exact ⟨fun after => after.sound, fun sound => ⟨Heap.holding_iff.mp sound, returned⟩⟩

theorem Resolves.always_iff (h : s.Resolves) {events : List Event} (honest : s.Honest events) :
    s.AlwaysResolves events ↔ s.Spared events := by
  induction events generalizing s with
  | nil => exact iff_of_true h trivial
  | cons e rest ih =>
    have step := h.after_iff honest.1
    constructor
    · rintro ⟨-, later⟩
      -- the next state is one of those in which every shadow resolves
      have next : (s.after e).Resolves := by
        cases rest with
        | nil => exact later
        | cons _ _ => exact later.1
      exact ⟨step.mp next, (ih next honest.2).mp later⟩
    · rintro ⟨spared, later⟩
      have next := step.mpr spared
      exact ⟨h, (ih next honest.2).mpr later⟩

theorem resolves_start (settings : Settings) {heap : Heap}
    (bare : ∀ v, heap.Contains v → v.raw = v) : (start settings heap).Resolves where
  stored v hv := by
    have raw : (Ghosts.install (.standard settings.evalSink) heap).Holding fun v => v.raw = v :=
      Ghosts.holding_install (fun _ h => h) _ (Heap.holding_iff.mpr bare)
    exact Value.ownedBy_of_raw (Heap.holding_iff.mp raw v hv)
  returned v hv := nomatch hv

/-- In a run from a heap without shadows, in which hooks are called in any order and may fail, and in
which the host makes up no shadow, every shadow resolves all the time exactly if no store is refused
after its hook has given shadows to the bare literals that a precise container holds. -/
theorem resolves_iff (settings : Settings) {heap : Heap} (bare : ∀ v, heap.Contains v → v.raw = v)
    {events : List Event} (honest : (start settings heap).Honest events) :
    (start settings heap).AlwaysResolves events ↔ (start settings heap).Spared events :=
  (resolves_start settings bare).always_iff honest

/-- The settings in which arrays are tracked element by element. -/
def preciseArrays : Settings := { policies := ({} : Levels).set "array" .precise }

/-- A heap with an array that holds a bare literal and with the function that taints values. -/
def arrayAndSource : Heap :=
  ⟨#[{ kind := .array [.string "x"] }, { kind := .function { name := "__jalangi_set_taint__" } }]⟩

/-- The shadow of the first literal of a run. -/
def firstShadow : Value := .shadow ⟨0⟩ ⟨0⟩ (.string "evil")

/-- A literal is tainted, and the host carries out its store into the prototype of the array. -/
def taintedStore : List Event :=
  [.host arrayAndSource, .hook (.literal (.string "evil")),
    .hook (.callPre { f := .object 1, base := .undefined, args := [firstShadow], site := 1 }),
    .hook (.putFieldPre (.object 0) (.string "__proto__") firstShadow)]

/-- The hook after that store. -/
def refusal : Event := .hook (.putField (.object 0) (.string "__proto__") firstShadow)

theorem bare_arrayAndSource : ∀ v, arrayAndSource.Contains v → v.raw = v := by
  refine Heap.holding_iff.mp fun id => ?_
  rcases id with _ | _ | id
  · exact HeapObject.holding_empty fun v hv => by
      rw [List.mem_singleton.mp hv]
      rfl
  · exact HeapObject.holding_empty trivial
  · exact HeapObject.holding_empty trivial

theorem honest_taintedStore :
    (start preciseArrays ⟨#[]⟩).Honest (taintedStore ++ [refusal]) := by
  have passes {s : Session} (first : firstShadow ∈ s.given) {vs : List Value}
      (bare : ∀ v ∈ vs, v.raw = v ∨ v = firstShadow) : ∀ v ∈ vs, s.Has v := by
    intro v hv
    rcases bare v hv with raw | rfl
    · exact .inl raw
    · exact .inr (.inl first)
  have first : firstShadow ∈ (run (start preciseArrays ⟨#[]⟩) (taintedStore.take 2)).given := by
    have given : (run (start preciseArrays ⟨#[]⟩) (taintedStore.take 2)).given = [firstShadow] := rfl
    rw [given]
    exact List.mem_singleton_self _
  have called := mem_given_after first
    (.hook (.callPre { f := .object 1, base := .undefined, args := [firstShadow], site := 1 }))
  have prepared := mem_given_after called
    (.hook (.putFieldPre (.object 0) (.string "__proto__") firstShadow))
  refine ⟨fun v hv => .inl (bare_arrayAndSource v hv), ?_, passes first ?_, passes called ?_,
    passes prepared ?_, trivial⟩
  · intro v hv
    rw [List.mem_singleton.mp hv]
    exact .inl rfl
  all_goals
    intro v hv
    simp only [Hook.operands, Call.operands, List.mem_cons, List.not_mem_nil, or_false] at hv
    rcases hv with rfl | rfl | rfl
    · exact .inl rfl
    · exact .inl rfl
    · exact .inr rfl

/-- The store is refused when the literal in the array has its shadow already. -/
theorem strands_refusal : (run (start preciseArrays ⟨#[]⟩) taintedStore).Strands refusal := by
  have fails : ((Hook.putField (.object 0) (.string "__proto__") firstShadow).run
      (run (start preciseArrays ⟨#[]⟩) taintedStore).tracker).1.isOk = false := by
    decide +kernel
  have policy : (run (start preciseArrays ⟨#[]⟩) taintedStore).tracker.settings.policies.policyFor
      (run (start preciseArrays ⟨#[]⟩) taintedStore).tracker.memory.heap (.object 0) =
        .container .array .precise := by decide +kernel
  have bare : ((run (start preciseArrays ⟨#[]⟩) taintedStore).tracker.memory.heap.held? .array 0).any
      (·.any Value.isBareLiteral) = true := by decide +kernel
  refine ⟨?_, by decide +kernel, .object 0, by simp [Tracker.rewrapped], .array, 0, ?_⟩
  · rcases result : ((Hook.putField (.object 0) (.string "__proto__") firstShadow).run
      (run (start preciseArrays ⟨#[]⟩) taintedStore).tracker).1 with e | vs
    · exact ⟨e, rfl⟩
    · rw [result] at fails
      cases fails
  · rcases held : (run (start preciseArrays ⟨#[]⟩) taintedStore).tracker.memory.heap.held? .array 0
      with _ | values
    · rw [held] at bare
      cases bare
    · rw [held] at bare
      obtain ⟨w, hw, literal⟩ := List.any_eq_true.mp bare
      exact ⟨values, rfl, policy, rfl, w, hw, literal⟩

/-- The condition is needed: in the run of the refused store some shadow does not resolve. -/
theorem resolves_iff_refusal :
    (∀ v, (⟨#[]⟩ : Heap).Contains v → v.raw = v) ∧
    (start preciseArrays ⟨#[]⟩).Honest (taintedStore ++ [refusal]) ∧
    ¬ (start preciseArrays ⟨#[]⟩).AlwaysResolves (taintedStore ++ [refusal]) := by
  have bare : ∀ v, (⟨#[]⟩ : Heap).Contains v → v.raw = v := by
    rintro v ⟨id, held | ⟨e, he, -⟩⟩
    · cases held
    · cases he
  refine ⟨bare, honest_taintedStore, fun always => ?_⟩
  exact ((resolves_iff preciseArrays bare honest_taintedStore).mp always).2.2.2.2.1 strands_refusal

/-- The handles of the shadows in the first array on the heap, with what the shadows carry. -/
def elementHandles (s : Session) : List (Nat × String) :=
  ((s.tracker.memory.heap.elements? (.object 0)).getD []).filterMap fun v => match v with
    | .shadow handle _ raw => some (handle.index, raw.text)
    | _ => none

/-- What the handles stand for. -/
def handleTexts (s : Session) : List String := s.tracker.memory.shadow.wraps.toList.map (·.2.text)

theorem Resolves.elementHandles (h : s.Resolves) :
    ∀ e ∈ s.elementHandles, s.handleTexts[e.1]? = some e.2 := by
  intro e he
  obtain ⟨v, hv, shadow⟩ := List.mem_filterMap.mp he
  rcases elements : s.tracker.memory.heap.elements? (.object 0) with _ | vs
  · rw [elements] at hv
    cases hv
  · rw [elements] at hv
    have owned := Heap.Holding.elements? h.sound elements v hv
    cases v with
    | shadow handle identity raw =>
      cases shadow
      have known : s.tracker.memory.shadow.wraps[handle.index]? = some (identity, raw) := owned
      rw [handleTexts, List.getElem?_map, Array.getElem?_toList, known]
      rfl
    | literal l => cases shadow
    | object id => cases shadow

/-- The refused store, and two literals after it. -/
def reissue : List Event :=
  taintedStore ++ [refusal] ++ [.hook (.literal (.string "a")), .hook (.literal (.string "b"))]

/-- After the refused store the second literal gets the handle of the shadow in the array, which
carries another literal. -/
theorem handle_reissued :
    (start preciseArrays ⟨#[]⟩).Honest reissue ∧
    (run (start preciseArrays ⟨#[]⟩) reissue).elementHandles = [(2, "x")] ∧
    (run (start preciseArrays ⟨#[]⟩) reissue).handleTexts = ["evil", "a", "b"] ∧
    ¬ (run (start preciseArrays ⟨#[]⟩) reissue).Resolves := by
  refine ⟨?_, by decide +kernel, by decide +kernel, fun resolves => ?_⟩
  · refine honest_append.mpr ⟨honest_taintedStore, ?_, ?_, trivial⟩
    all_goals
      intro v hv
      rw [List.mem_singleton.mp hv]
      exact .inl rfl
  · exact absurd resolves.elementHandles (by decide +kernel)

end Session

end ShadowTaint
