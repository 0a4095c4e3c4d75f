import ShadowTaint.Proofs.Contents
import ShadowTaint.Proofs.Laundering
import ShadowTaint.Proofs.Notes
import ShadowTaint.Proofs.Relabel
/-!
# Containers that are tainted as a whole

A container that is tracked as a whole has one bit for everything in it. The bit is set when something tainted
is put in, whatever is taken out is tainted from then on, and neither of the two clears the bit: not even
when a container is taken out of itself.

## Main statements

- `ContainerRule.taintBit_of_argument`: what sets the bit.
- `ContainerRule.taintBit_taintRead`, `ContainerRule.taintBit_taintReceiver`: it stays set.
- `ContainerRule.taintBit_result`: what is taken out is tainted.
-/

namespace ShadowTaint

open Memory Policy

namespace Memory

section Bits

variable {m m' : Memory} {v w : Value} {key : TaintKey}

theorem taintBit_of_key (own : m.shadow.keyOf v = some key) :
    m.taintBit v = (m.shadow.entries.get? key).any (·.bit) := by
  rw [taintBit, stored?_of_key own]

/-- A step that stores one entry sets the bit of what it stores the entry for. -/
theorem Writes.taintBit {bit : Bool} {chars : Option CharMap} (h : m.Writes m' v bit chars)
    (own : m.shadow.keyOf w = some key) :
    m'.taintBit w = if m.shadow.keyOf v = some key then bit else m.taintBit w := by
  obtain ⟨path, entries⟩ := h.stored
  have own' : m'.shadow.keyOf w = some key := by rw [keyOf_of_wraps h.wraps, own]
  rw [taintBit_of_key own', taintBit_of_key own, entries]
  split <;> rfl

theorem taintBit_object (m : Memory) (o : ObjectId) :
    m.taintBit (.object o) = (m.shadow.entries.get? (.object o)).any (·.bit) :=
  taintBit_of_key rfl

theorem Writes.taintBit_object {bit : Bool} {chars : Option CharMap} (h : m.Writes m' v bit chars)
    (o : ObjectId) : m'.taintBit (.object o) =
      if m.shadow.keyOf v = some (.object o) then bit else m.taintBit (.object o) :=
  h.taintBit rfl

/-- The bit of an object lasts. -/
theorem lasting_bit (o : ObjectId) : Lasting fun m => m.taintBit (.object o) = true where
  quiet {m m'} quiet bit := by
    rw [taintBit_object] at bit ⊢
    rw [quiet.entries, bit]
  relabel v label m bit := by
    show (MemoryM.relabel v label m).2.taintBit (.object o) = true
    rw [(MemoryM.answersAs_relabel v label m).taintBit, bit]

end Bits

/-- What is wrapped has a key then, where literals get shadows. -/
theorem exists_keyOf_wrap (levels : Levels) {v : Value} {m : Memory} (tracks : m.Tracks v)
    (wraps : m.shadow.frame.callType.skipsWrapping = false) :
    ∃ key, (MemoryM.wrap levels v m).2.shadow.keyOf (MemoryM.wrap levels v m).1 = some key := by
  cases v with
  | literal raw =>
    obtain ⟨id, known⟩ := MemoryM.lookup_wrap levels raw wraps
    exact ⟨.identity id, by rw [ShadowState.keyOf, known]⟩
  | object id => exact ⟨.object id, rfl⟩
  | shadow handle identity raw =>
    obtain bare | ⟨x, known⟩ := tracks
    · cases bare
    have grows := (MemoryM.stacks_wrap levels (.shadow handle identity raw) m).toGrows
    have own : m.shadow.keyOf (.shadow handle identity raw) = some (.identity x.1) := by
      rw [ShadowState.keyOf, known]
    exact ⟨.identity x.1, grows.keyOf own⟩

end Memory

namespace ContainerRule

open MemoryM

/-- What is recorded for a value that was taken out of a container. -/
theorem writes_taintRead (label : String) (c : NativeCall) (m : Memory) :
    ∃ chars, m.Writes (taintRead label c m).2 c.result
      (m.taintBit c.result || m.taintBit c.base || m.anyProps c.base) chars := by
  have read : entry c.base m = (m.entryOf c.base, (useNodes 1 m).2) := rfl
  refine ⟨((useNodes 1 m).2).charMap? c.result
    (m.taintBit c.result || m.taintBit c.base || m.anyProps c.base), ?_⟩
  unfold taintRead
  rw [bind_apply, get_apply]
  dsimp only
  rw [bind_apply, read]
  dsimp only
  rw [bit_entryOf]
  exact writes_record ((NodesUsed.refl m).more 1) _ _ _ _ _

/-- A container of which the bit is set keeps it when something is taken out, be it the container. -/
theorem taintBit_taintRead (label : String) (c : NativeCall) {o : ObjectId} {m : Memory}
    (bit : m.taintBit (.object o) = true) : (taintRead label c m).2.taintBit (.object o) = true := by
  obtain ⟨chars, writes⟩ := writes_taintRead label c m
  rw [writes.taintBit_object]
  split
  · rename_i own
    rw [taintBit_of_key own, ← taintBit_object, bit, Bool.true_or, Bool.true_or]
  · exact bit

/-- What is taken out of a container of which the bit is set is tainted. -/
theorem taintBit_result (label : String) {c : NativeCall} {key : TaintKey} {m : Memory}
    (bit : m.taintBit c.base = true) (own : m.shadow.keyOf c.result = some key) :
    (taintRead label c m).2.taintBit c.result = true := by
  obtain ⟨chars, writes⟩ := writes_taintRead label c m
  rw [writes.taintBit own, if_pos own, bit, Bool.or_true, Bool.true_or]

theorem taintBit_taintReceiver (label : String) (c : NativeCall) {o : ObjectId} {m : Memory}
    (bit : m.taintBit (.object o) = true) : (taintReceiver label c m).2.taintBit (.object o) = true := by
  unfold taintReceiver
  rw [bind_apply, get_apply]
  dsimp only
  split
  · rw [(writes_taintWhole label c.base m).taintBit_object]
    split
    · rfl
    · exact bit
  · exact bit

/-- A tainted argument sets the bit of the container. -/
theorem taintBit_of_argument (label : String) {c : NativeCall} {o : ObjectId} {w : Value} {m : Memory}
    (base : c.base = .object o) (mem : w ∈ c.args) (tainted : m.isTainted w = true) :
    (taintReceiver label c m).2.taintBit (.object o) = true := by
  unfold taintReceiver
  rw [bind_apply, get_apply]
  dsimp only
  rw [if_pos (List.any_eq_true.mpr ⟨w, mem, tainted⟩), base,
    (writes_taintWhole label (.object o) m).taintBit_object]
  exact if_pos rfl

end ContainerRule

end ShadowTaint
