import ShadowTaint.Proofs.ContainerTaint
import ShadowTaint.Proofs.Contents
import ShadowTaint.Proofs.Freshness
import ShadowTaint.Proofs.Persistence
import ShadowTaint.Tracker.Operations
/-!
# Reading an element of an array

An element that is read is tainted if it was so before, and if the array is tainted as a whole. It does not
matter how precisely arrays and objects are tracked.

## Main definitions

- `Memory.TaintedIn`: an element has taint, of its own or as a part of the array.

## Main statements

- `Tracker.getFieldPreBody_atRest`: what the hook before a read hands over.
- `Tracker.readField_element`: what is read is tainted.
-/

namespace ShadowTaint

open Memory Tracker

namespace MemoryM

variable {levels : Levels} {m : Memory}

/-- The members of a container that was wrapped have keys once they are read, if they had before. -/
theorem tracks_wrap {c : Container} {grain : Grain} {id : ObjectId} {values : List Value}
    (policy : levels.policyFor m.heap (.object id) = .container c grain)
    (held : m.heap.held? c id = some values) (tracks : ∀ v ∈ values, m.Tracks v)
    (wraps : m.shadow.frame.callType.skipsWrapping = false) :
    ∀ w ∈ (values.mapM (hold grain) m).1, (wrap levels (.object id) m).2.Tracks w := by
  have object : m.objectOf? (.object id) = some id := rfl
  have settled : (settle (.container c grain) (.object id) m).2.shadow =
      (values.mapM (hold grain) m).2.shadow := by
    rw [settle_of_held object held]
    rfl
  have handles : (values.mapM (hold grain) m).2.SameHandles (wrap levels (.object id) m).2 := by
    have dropped : (settle (.container c grain) (.object id) m).2.SameHandles
        (wrap levels (.object id) m).2 := by
      rw [← policy]
      exact admitsStripping_sameHandles.takeIdentity _
    rw [SameHandles, settled] at dropped
    exact dropped
  intro w hw
  rcases tracks_mapM_hold grain values tracks wraps w hw with bare | ⟨x, known⟩
  · exact .inl bare
  · exact .inr ⟨x, by rw [lookup?_of_wraps handles, known]⟩

end MemoryM

/-- Taint that is recorded for a value is recorded under its key. -/
theorem Memory.Records.holds {m m' : Memory} {v : Value} {label : String} {sources : List Value}
    {key : TaintKey} (recorded : m.Records m' v true label sources) (own : m.shadow.keyOf v = some key) :
    m'.Holds key := by
  obtain ⟨e, tainted, -, entries⟩ := recorded.get?
  exact ⟨e, by rw [entries, if_pos own], tainted⟩

/-- An element of an array has taint: the bit of the array is set, or something is recorded for the element. -/
def Memory.TaintedIn (array : ObjectId) (w : Value) (m : Memory) : Prop :=
  m.taintBit (.object array) = true ∨ ∃ key, m.shadow.keyOf w = some key ∧ m.Holds key

theorem Memory.TaintedIn.congr {m m' : Memory} {array : ObjectId} {w : Value} (h : m.TaintedIn array w)
    (entries : m'.shadow.entries = m.shadow.entries) (wraps : m'.shadow.wraps = m.shadow.wraps) :
    m'.TaintedIn array w := by
  refine h.imp (fun bit => ?_) fun ⟨key, own, e, stored, bit⟩ => ⟨key, ?_, e, ?_, bit⟩
  · rwa [taintBit_object, entries, ← taintBit_object]
  · rw [keyOf_of_wraps wraps, own]
  · rw [entries, stored]

/-- A property that was read is tainted if it was so before, or if the bit of the object is set. -/
theorem ObjectRule.isTainted_getField (grain : Grain) {ops : Operands} {key : TaintKey} {m : Memory}
    (own : m.shadow.keyOf ops.value = some key)
    (tainted : m.taintBit ops.base = true ∨ m.Holds key) :
    (getField grain ops m).2.isTainted ops.value = true := by
  have own' : (getField grain ops m).2.shadow.keyOf ops.value = some key := by
    rw [keyOf_of_wraps (marks_getField grain ops m).wraps, own]
  refine isTainted_of_ownTaint (Holds.ownTaint ?_ own')
  rcases tainted with bit | holds
  · have base : grain.isTainted m ops.base = true := grain.isTainted_of_bit bit
    rcases records_getField grain ops m with ⟨known, -, recorded⟩ | ⟨-, recorded⟩
    · rw [base, Bool.true_or, Bool.true_or] at recorded
      exact recorded.holds own
    · rw [base] at recorded
      exact recorded.holds own
  · exact holds.getField grain ops

namespace Tracker

/-- At rest the hook before a read hands over what base and offset stand for, and leaves the heap, what is
recorded and the handles alone. -/
theorem getFieldPreBody_atRest {m : Memory} (rest : m.shadow.AtRest) (base offset : Value) :
    ∃ m', getFieldPreBody base offset m = (.ok (m.valueOf base, m.valueOf offset), m') ∧ m.Issues m' ∧
      m.SameHandles m' ∧ m'.shadow.frame.reserved.length = 2 ∧
      m'.shadow.frame.callType = m.shadow.frame.callType := by
  obtain ⟨idb, -, first⟩ := MemoryM.stacks_unwrap base m.idle
  obtain ⟨ido, -, second⟩ := MemoryM.stacks_unwrap offset (MemoryM.unwrap base m.idle).2
  have handles₁ : m.SameHandles (MemoryM.unwrap base m.idle).2 :=
    admitsStripping_sameHandles.unwrap base m.idle
  have handles₂ := admitsStripping_sameHandles.unwrap offset (MemoryM.unwrap base m.idle).2
  have issues₁ : m.Issues (MemoryM.unwrap base m.idle).2 := by
    have issued := MemoryM.issues_unwrap base m.idle
    exact ⟨issued.heap, issued.entries⟩
  refine ⟨(MemoryM.unwrap offset (MemoryM.unwrap base m.idle).2).2, ?_,
    trans_of Issues issues₁ (MemoryM.issues_unwrap offset _), trans_of SameHandles handles₁ handles₂, ?_, ?_⟩
  · unfold getFieldPreBody
    rw [bind_apply_ok (CheckedM.expectIdle_atRest rest _), lift_bind_apply, lift_bind_apply]
    show (Except.ok (m.valueOf base, (MemoryM.unwrap base m.idle).2.valueOf offset), _) = _
    rw [valueOf_of_wraps handles₁]
  · rw [second.reserved, first.reserved]
    rfl
  · rw [second.callType, first.callType]
    rfl

/-- What the hook after a read does, if the value that was read is no object. -/
theorem getFieldBody_apply (levels : Levels) {v : Value} (plain : v.object? = none) {m : Memory}
    (two : m.shadow.frame.reserved.length = 2) (base offset : Value) :
    ∃ b o w m₁ m₂ m₃, MemoryM.wrap levels offset m = (o, m₁) ∧ MemoryM.wrap levels base m₁ = (b, m₂) ∧
      MemoryM.wrap levels v m₂ = (w, m₃) ∧
      getFieldBody base offset v levels m =
        (.ok ⟨b, o, w⟩, ((m₃.policyOf levels b).getField levels ⟨b, o, w⟩ m₃).2) := by
  refine ⟨_, _, _, _, _, _, rfl, rfl, rfl, ?_⟩
  have named : MemoryM.modifyHeap (nameFunction · v offset) m = ((), m) := by
    show ((), { m with heap := nameFunction m.heap v offset }) = _
    rw [nameFunction, plain]
  have empty : (MemoryM.wrap levels v (MemoryM.wrap levels base
      (MemoryM.wrap levels offset m).2).2).2.shadow.frame.reserved.length = 0 := by
    rw [(MemoryM.stacks_wrap levels v _).reserved, (MemoryM.stacks_wrap levels base _).reserved,
      (MemoryM.stacks_wrap levels offset m).reserved, List.length_tail, List.length_tail,
      List.length_tail, two]
  unfold getFieldBody
  rw [lift_bind_of named, lift_bind_apply, lift_bind_apply, lift_bind_apply,
    bind_apply_ok (CheckedM.checkPending_ok empty), get_bind_apply]
  rfl

/-- The hook after an element of an array was read records that the element is tainted, if the bit of the
array is set or if it was so before. -/
theorem getFieldBody_element (levels : Levels) {m : Memory} (wraps : m.shadow.frame.callType.skipsWrapping = false)
    (two : m.shadow.frame.reserved.length = 2) {array : ObjectId} {grain : Grain}
    (policy : levels.policyFor m.heap (.object array) = .container .array grain) {w : Value}
    (plain : w.object? = none) (tracks : m.Tracks w)
    (tainted : m.TaintedIn array w)
    (offset : Value) :
    ∃ ops m', getFieldBody (.object array) offset w levels m = (.ok ops, m') ∧
      m'.isTainted ops.value = true := by
  obtain ⟨b, o, v, m₁, m₂, m₃, run₁, run₂, run₃, post⟩ :=
    getFieldBody_apply levels plain two (.object array) offset
  refine ⟨_, _, post, ?_⟩
  -- nothing is recorded before the rule applies, and the array keeps its policy
  have first := MemoryM.settles_wrap levels offset m
  have second := MemoryM.settles_wrap levels (.object array) m₁
  have third := MemoryM.settles_wrap levels w m₂
  have callType₁ := (MemoryM.stacks_wrap levels offset m).callType
  have callType₂ := (MemoryM.stacks_wrap levels (.object array) m₁).callType
  obtain rfl : .object array = b := congrArg Prod.fst run₂
  rw [run₁] at first callType₁
  rw [run₂] at second callType₂
  rw [run₃] at third
  have settles := (first.trans second).trans third
  have rule : m₃.policyOf levels (.object array) = .container .array grain :=
    (settles.policy (.object array)).trans policy
  rw [rule]
  have own : ∃ key, m₃.shadow.keyOf v = some key := by
    have tracked := exists_keyOf_wrap levels (tracks.mono (first.trans second).grows)
      (by rw [callType₂, callType₁, wraps])
    rwa [run₃] at tracked
  rcases tainted with bit | ⟨key, own', e, found, bit⟩
  · obtain ⟨key, own⟩ := own
    refine ObjectRule.isTainted_getField levels.objectGrain own (.inl ?_)
    rwa [taintBit_object, settles.entries, ← taintBit_object]
  · have shadowed : w.isBareLiteral = false := by
      cases w with
      | literal l => cases own'
      | object id => rfl
      | shadow handle identity raw => rfl
    obtain rfl : w = v := by
      have same := MemoryM.wrap_of_not_bare levels shadowed m₂
      rw [run₃] at same
      exact same.symm
    refine ObjectRule.isTainted_getField levels.objectGrain (settles.grows.keyOf own') (.inr ⟨e, ?_, bit⟩)
    rw [settles.entries, found]

/-- An element is read under a key that spells its index. -/
theorem getProperty_element {h : Heap} {array : ObjectId} {elements : List Value} {i : Nat} {key : String}
    {w : Value} (held : h.held? .array array = some elements) (found : elements[i]? = some w)
    (spelled : Text.readIndex? key = some i) : h.getProperty array key = w := by
  have unread : Text.readIndex? "length" = none := by decide +kernel
  have other : key ≠ "length" := by
    rintro rfl
    rw [unread] at spelled
    cases spelled
  rw [Heap.held?] at held
  rcases kind : (h.get array).kind <;> rw [kind] at held <;> cases held
  rw [Heap.getProperty, Heap.HeapObject.property, kind]
  dsimp only
  rw [if_neg other, spelled]
  dsimp only
  rw [List.getD_eq_getElem?_getD, found, Option.getD_some]

/-- Reading an element of an array that is no object succeeds, and what is read is tainted if the bit of the
array is set or if the element is tainted. -/
theorem readField_element {t : Tracker} (rest : t.memory.shadow.AtRest)
    (wraps : t.memory.shadow.frame.callType.skipsWrapping = false) {array : ObjectId} {grain : Grain}
    {elements : List Value} {i : Nat} {offset w : Value}
    (policy : t.settings.policies.policyFor t.memory.heap (.object array) = .container .array grain)
    (held : t.memory.heap.held? .array array = some elements) (found : elements[i]? = some w)
    (plain : w.object? = none) (tracks : t.memory.Tracks w)
    (spelled : Text.readIndex? (t.memory.keyText offset) = some i)
    (tainted : t.memory.TaintedIn array w) :
    ∃ ops t', readField (.object array) offset none t = (.ok ops, t') ∧
      t'.memory.isTainted ops.value = true := by
  obtain ⟨m, pre, issues, handles, two, callType⟩ := getFieldPreBody_atRest rest (.object array) offset
  obtain ⟨t₁, hooked₁, memory₁, settings₁, -⟩ := HookM.memoryHook_of "get_field_pre"
    (fun t => [("base", t.render (.object array)), ("offset", t.render offset)])
    (fun _ => getFieldPreBody (.object array) offset) pre
  have before : getFieldPre (.object array) offset t =
      (.ok (.object array, t.memory.valueOf offset), t₁) := hooked₁
  have heap : m.ended.heap = t.memory.heap := issues.heap
  have entries : m.ended.shadow.entries = t.memory.shadow.entries := issues.entries
  have handles : m.ended.shadow.wraps = t.memory.shadow.wraps := handles
  have tracks' : m.ended.Tracks w :=
    tracks.imp_right fun ⟨x, known⟩ => ⟨x, by rw [lookup?_of_wraps handles, known]⟩
  obtain ⟨ops, m', post, read⟩ := getFieldBody_element t.settings.policies (m := m.ended)
    (by rw [← wraps]; exact congrArg _ callType) two (by rw [heap, policy]) plain tracks'
    (tainted.congr entries handles) (t.memory.valueOf offset)
  obtain ⟨t₂, hooked₂, memory₂, -⟩ := HookM.memoryHook_of (t := t₁) "get_field"
    (fun u => [("base", u.render (.object array)), ("offset", u.render (t.memory.valueOf offset)),
      ("value", u.render w)])
    (getFieldBody (.object array) (t.memory.valueOf offset) w) (by rw [settings₁, memory₁]; exact post)
  have later : getField (.object array) (t.memory.valueOf offset) w t₁ = (.ok ops, t₂) := hooked₂
  refine ⟨ops, t₂, ?_, by rw [memory₂]; exact read⟩
  unfold readField
  rw [bind_apply_ok before]
  dsimp only
  rw [get_bind_apply]
  dsimp only [Value.object?]
  rw [memory₁, heap, ← Memory.keyText, getProperty_element held found spelled, later]

end Tracker

end ShadowTaint
