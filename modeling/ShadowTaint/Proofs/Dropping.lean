import ShadowTaint.Proofs.ContainerTaint
import ShadowTaint.Proofs.Methods
/-!
# What containers drop

A container that is tracked as a whole holds bare values. When it is wrapped, the shadows of its members are
taken off. Nothing is recorded for the container then, whatever was recorded for those shadows. Objects need
no shadow: the container still shows the taint of objects among its elements, and of its named properties.

## Main definitions

- `Memory.exposed`: what taint queries see of a container once it holds bare values.

## Main statements

- `MemoryM.held?_wrap_imprecise`: what such a container holds after it was wrapped.
- `MemoryM.isTainted_wrap_iff`: when it is tainted then.
- `Session.wrap_drops_taint`: an array that is wrapped loses the taint of its only element.
-/

namespace ShadowTaint

open Memory

namespace Memory

variable {m m' : Memory}

variable {c : Container} {id : ObjectId} {values : List Value}

/-- What taint queries see of a container with these members, once the shadows of the members are off and
those of its named properties are not. -/
def exposed (m : Memory) (c : Container) (id : ObjectId) (values : List Value) : List Value :=
  match c with
  | .array => values.filter fun v => v.object?.isSome
  | .map | .set => (m.heap.dataProperties id).map (·.2)

theorem members_of_array (held : m.heap.held? .array id = some values) :
    m.members (.object id) = values := by
  have object : m.objectOf? (.object id) = some id := rfl
  rw [Heap.held?] at held
  rw [members, object]
  rcases kind : (m.heap.get id).kind <;> rw [kind] at held <;> cases held
  simp only [kind]

/-- What a map or a set holds is no concern of taint queries. -/
theorem members_of_keyed (keyed : c ≠ .array) (held : m.heap.held? c id = some values) :
    m.members (.object id) = (m.heap.dataProperties id).map (·.2) := by
  have object : m.objectOf? (.object id) = some id := rfl
  rw [Heap.held?] at held
  rw [members, object]
  cases c <;> rcases kind : (m.heap.get id).kind <;> rw [kind] at held <;> cases held
  · exact absurd rfl keyed
  · simp only [kind]
  · simp only [kind]

theorem taintBit_congr (entries : m'.shadow.entries = m.shadow.entries) (handles : m.SameHandles m')
    (v : Value) : m'.taintBit v = m.taintBit v := by
  rw [taintBit, taintBit, stored?, stored?, ShadowState.stored?, ShadowState.stored?,
    keyOf_of_wraps handles, entries]

/-- A literal without a shadow has no taint, and an object has its own. -/
theorem taintBit_valueOf (v : Value) :
    m.taintBit (m.valueOf v) = (v.object?.isSome && m.taintBit v) := by
  cases v with
  | object id => rfl
  | literal l => rfl
  | shadow handle identity raw =>
    obtain ⟨l, value⟩ : ∃ l, m.valueOf (.shadow handle identity raw) = .literal l :=
      m.shadow.exists_valueOf_of_plain rfl
    rw [value]
    rfl

/-- Whether a value is tainted, read off what is recorded for it and off its members. -/
theorem isTainted_iff (m : Memory) (v : Value) : m.isTainted v = true ↔ m.ownTaint v = true ∨
    (m.stored? v).bind (·.chars) = none ∧ ∃ w ∈ m.members v, m.taintBit w = true := by
  refine ⟨fun tainted => ?_, ?_⟩
  · rcases Bool.or_eq_true_iff.mp tainted with bit | props
    · exact .inl (ownTaint_of_bit bit)
    · rw [anyProps] at props
      split at props
      · rename_i map chars
        obtain ⟨e, stored, own⟩ := Option.bind_eq_some_iff.mp chars
        left
        rw [ownTaint_of_stored stored, TaintEntry.isTainted, own, Option.any_some, props, Bool.or_true]
      · exact .inr ⟨‹_›, List.any_eq_true.mp props⟩
  · rintro (own | ⟨clear, members⟩)
    · exact isTainted_of_ownTaint own
    · rw [Memory.isTainted, anyProps, clear, List.any_eq_true.mpr members, Bool.or_true]

end Memory

namespace MemoryM

variable {levels : Levels} {m : Memory} {c : Container} {id : ObjectId} {values : List Value}

theorem sameHandles_hold_imprecise (v : Value) : Within SameHandles (hold .imprecise v) :=
  .bind (admitsStripping_sameHandles.unwrap v) fun _ =>
    .bind (.bind admitsStripping_sameHandles.takeIdentity fun _ => .pure _) fun _ => .pure _

/-- A container that is tracked as a whole holds its members without shadows. -/
theorem mapM_hold_imprecise (values : List Value) (m : Memory) :
    (values.mapM (hold .imprecise) m).1 = values.map m.valueOf := by
  have bare := map_mapM_of_handles (f := hold .imprecise) (v := fun v => v) id sameHandles_hold_imprecise
    (fun _ _ => rfl) values m
  rwa [List.map_id] at bare

/-- The handles after a container was wrapped are those after its members were. -/
theorem sameHandles_wrap_of_held {grain : Grain}
    (policy : levels.policyFor m.heap (.object id) = .container c grain)
    (held : m.heap.held? c id = some values) :
    (values.mapM (hold grain) m).2.SameHandles (wrap levels (.object id) m).2 := by
  have object : m.objectOf? (.object id) = some id := rfl
  have settled : (values.mapM (hold grain) m).2.SameHandles
      (settle (.container c grain) (.object id) m).2 := by
    rw [settle_of_held object held]
    rfl
  rw [← policy] at settled
  exact trans_of SameHandles settled (admitsStripping_sameHandles.takeIdentity _)

section Wrapping

variable (policy : levels.policyFor m.heap (.object id) = .container c .imprecise)
  (held : m.heap.held? c id = some values)
include policy held

theorem held?_wrap_imprecise :
    (wrap levels (.object id) m).2.heap.held? c id = some (values.map m.valueOf) := by
  rw [heap_wrap_of_held policy held, mapM_hold_imprecise]
  exact Heap.held?_setHeld held (List.length_map _)

/-- No handle is needed to wrap a container that is tracked as a whole. -/
theorem sameHandles_wrap_imprecise : m.SameHandles (wrap levels (.object id) m).2 :=
  trans_of SameHandles (Within.mapM sameHandles_hold_imprecise values m)
    (sameHandles_wrap_of_held policy held)

/-- The named properties of a container that is wrapped stay what they are. -/
theorem dataProperties_wrap :
    (wrap levels (.object id) m).2.heap.dataProperties id = m.heap.dataProperties id := by
  rw [heap_wrap_of_held policy held, Heap.dataProperties, Heap.get_setHeld_self]
  rfl

/-- What a container that was wrapped exposes to taint queries. -/
theorem taintBit_members_wrap :
    (∃ w ∈ (wrap levels (.object id) m).2.members (.object id),
        (wrap levels (.object id) m).2.taintBit w = true) ↔
      ∃ w ∈ m.exposed c id values, m.taintBit w = true := by
  have bits := taintBit_congr (quiet_wrap levels (.object id) m).entries
    (sameHandles_wrap_imprecise policy held)
  have after := held?_wrap_imprecise policy held
  have named := dataProperties_wrap policy held
  simp only [bits]
  cases c with
  | array =>
    rw [members_of_array after, Memory.exposed]
    simp only [List.mem_map, exists_exists_and_eq_and, taintBit_valueOf, Bool.and_eq_true,
      List.mem_filter, and_assoc]
  | map => rw [members_of_keyed (c := .map) nofun after, named, Memory.exposed]
  | set => rw [members_of_keyed (c := .set) nofun after, named, Memory.exposed]

/-- After a container that is tracked as a whole was wrapped, it is tainted exactly if its own entry says so,
or if it exposes a tainted value. The shadows that it held do not count. -/
theorem isTainted_wrap_iff : (wrap levels (.object id) m).2.isTainted (.object id) = true ↔
    m.ownTaint (.object id) = true ∨ (m.stored? (.object id)).bind (·.chars) = none ∧
      ∃ w ∈ m.exposed c id values, m.taintBit w = true := by
  have entries := (quiet_wrap levels (.object id) m).entries
  have stored : (wrap levels (.object id) m).2.stored? (.object id) = m.stored? (.object id) := by
    rw [stored?, ShadowState.stored?, entries]
    rfl
  have own : (wrap levels (.object id) m).2.ownTaint (.object id) = m.ownTaint (.object id) := by
    rcases known : m.stored? (.object id) with _ | e
    · rw [ownTaint_of_none known, ownTaint_of_none (stored.trans known)]
    · rw [ownTaint_of_stored known, ownTaint_of_stored (stored.trans known)]
  rw [isTainted_iff, own, stored, taintBit_members_wrap policy held]

end Wrapping

/-- A memory with an array of a tainted object, and of a tainted text. -/
def taintedMembers : Memory where
  heap := ⟨#[{ kind := .array [.object 1, .shadow ⟨0⟩ ⟨0⟩ (.string "evil")] }, { kind := .plain "Object" }]⟩
  shadow :=
    { wraps := #[(⟨0⟩, .string "evil")]
      entries := .ofList [(.object 1, { bit := true, chars := none, path := .leaf 0 "" }),
        (.identity ⟨0⟩, { bit := true, chars := none, path := .leaf 1 "" })]
      nextIdentity := 1 }

/-- The array keeps the taint of the object. -/
theorem isTainted_wrap_object :
    ({} : Levels).policyFor taintedMembers.heap (.object 0) = .container .array .imprecise ∧
    taintedMembers.heap.held? .array 0 = some [.object 1, .shadow ⟨0⟩ ⟨0⟩ (.string "evil")] ∧
    (wrap {} (.object 0) taintedMembers).2.isTainted (.object 0) = true := by
  have policy : ({} : Levels).policyFor taintedMembers.heap (.object 0) = .container .array .imprecise := by
    decide +kernel
  have held : taintedMembers.heap.held? .array 0 = some [.object 1, .shadow ⟨0⟩ ⟨0⟩ (.string "evil")] := rfl
  refine ⟨policy, held, (isTainted_wrap_iff policy held).mpr (.inr ⟨by decide +kernel, .object 1, ?_⟩)⟩
  exact ⟨List.mem_cons_self, by decide +kernel⟩

end MemoryM

namespace Session

/-- A heap with an array that holds the first shadow, and the function that taints values. -/
def arrayOfFirst : Heap :=
  ⟨#[{ kind := .array [firstShadow] }, { kind := .function { name := "__jalangi_set_taint__" } }]⟩

/-- The literal in the array is tainted. -/
def taintedElement : List Event :=
  [.hook (.literal (.string "evil")), .host arrayOfFirst,
    .hook (.callPre { f := .object 1, base := .undefined, args := [firstShadow], site := 1 })]

/-- The only element of an array is tainted, and when the array is wrapped nothing is. -/
theorem wrap_drops_taint :
    Reachable (run (start {} ⟨#[]⟩) taintedElement).tracker ∧
    (run (start {} ⟨#[]⟩) taintedElement).tracker.settings.policies.policyFor
      (run (start {} ⟨#[]⟩) taintedElement).tracker.memory.heap (.object 0) = .container .array .imprecise ∧
    (run (start {} ⟨#[]⟩) taintedElement).tracker.memory.heap.held? .array 0 = some [firstShadow] ∧
    (run (start {} ⟨#[]⟩) taintedElement).tracker.memory.isTainted firstShadow = true ∧
    (MemoryM.wrap (run (start {} ⟨#[]⟩) taintedElement).tracker.settings.policies (.object 0)
      (run (start {} ⟨#[]⟩) taintedElement).tracker.memory).2.isTainted (.object 0) = false :=
  ⟨reachable_run (.start {} ⟨#[]⟩) taintedElement, by decide +kernel, rfl, by decide +kernel,
    by decide +kernel⟩

end Session

end ShadowTaint
