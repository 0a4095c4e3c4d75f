import ShadowTaint.Proofs.Memory
/-!
# Notes in histories

A call is noted in the history of each of its arguments before the arguments are checked. The note
creates an entry for a value that had none, but no query of taint can tell: an entry that is created
records what the query would have answered anyway.

## Main definitions

- `Memory.AnswersAs`: another memory in which every query of taint has the same answer.
- `Provenance.Node.under`: a history with nodes of one label on top.
- `Memory.Noted`: the history of a value after the values of a list were noted.

## Main statements

- `MemoryM.answersAs_relabel`: a note in a history is invisible to queries.
- `MemoryM.noted_history`: what the history of a value is after a list was noted.
-/

namespace ShadowTaint

namespace CharMap

@[simp] theorem any_uniform_false (count : Nat) : (uniform count false).any = false := by
  simp [uniform, any]

@[simp] theorem all_uniform_false (count : Nat) : (uniform count false).all = false := by
  simp [uniform, all]

end CharMap

/-- A history with further nodes of one label on top, one after the other, each given by the number it
is born with and what it shows. -/
def Provenance.Node.under (label : String) (tops : List (Nat × String)) (n : Provenance.Node) :
    Provenance.Node :=
  tops.foldl (fun n top => .join top.1 label [n] top.2) n

namespace Memory

/-- The history of a value: the recorded one, or a root of its own. -/
def IsHistory (m : Memory) (v : Value) (n : Provenance.Node) : Prop :=
  match m.stored? v with
  | some e => n = e.path
  | none => ∃ uid, n = .leaf uid (m.snapshot v)

/-- The history of a value with one node on top for every value of the list that has the same key,
each of which shows that value. -/
def Noted (m : Memory) (label : String) (vs : List Value) (v : Value) (n : Provenance.Node) : Prop :=
  ∃ old tops, m.IsHistory v old ∧ n = Provenance.Node.under label tops old ∧
    tops.map (·.2) = (vs.filter fun w => m.shadow.keyOf w = m.shadow.keyOf v).map m.snapshot

/-- The heap, the handles and the frames are the same, and so is the answer to every query of
taint. -/
structure AnswersAs (m m' : Memory) : Prop where
  heap : m'.heap = m.heap
  wraps : m'.shadow.wraps = m.shadow.wraps
  frame : m'.shadow.frame = m.shadow.frame
  saved : m'.shadow.saved = m.shadow.saved
  taintBit : ∀ v, m'.taintBit v = m.taintBit v
  anyProps : ∀ v, m'.anyProps v = m.anyProps v
  allProps : ∀ v, m'.allProps v = m.allProps v

theorem AnswersAs.trans {m₁ m₂ m₃ : Memory} (h₁ : m₁.AnswersAs m₂) (h₂ : m₂.AnswersAs m₃) :
    m₁.AnswersAs m₃ where
  heap := h₂.heap.trans h₁.heap
  wraps := h₂.wraps.trans h₁.wraps
  frame := h₂.frame.trans h₁.frame
  saved := h₂.saved.trans h₁.saved
  taintBit v := (h₂.taintBit v).trans (h₁.taintBit v)
  anyProps v := (h₂.anyProps v).trans (h₁.anyProps v)
  allProps v := (h₂.allProps v).trans (h₁.allProps v)

instance : IsPreorder Memory AnswersAs where
  refl _ := ⟨rfl, rfl, rfl, rfl, fun _ => rfl, fun _ => rfl, fun _ => rfl⟩
  trans _ _ _ := .trans

variable {m m' : Memory}

theorem AnswersAs.isTainted (h : m.AnswersAs m') (v : Value) : m'.isTainted v = m.isTainted v := by
  rw [Memory.isTainted, Memory.isTainted, h.taintBit, h.anyProps]

theorem members_of_wraps (heap : m'.heap = m.heap) (h : m'.shadow.wraps = m.shadow.wraps)
    (v : Value) : m'.members v = m.members v := by
  simp only [members, objectOf?, valueOf_of_wraps h, heap]

theorem AnswersAs.snapshot (h : m.AnswersAs m') (v : Value) : m'.snapshot v = m.snapshot v := by
  rw [Memory.snapshot, Memory.snapshot, valueOf_of_wraps h.wraps, h.heap]

/-- What the notes for the values of one key show. -/
theorem AnswersAs.shown (h : m.AnswersAs m') (vs : List Value) (key : TaintKey) :
    (vs.filter fun w => m'.shadow.keyOf w = some key).map m'.snapshot =
      (vs.filter fun w => m.shadow.keyOf w = some key).map m.snapshot := by
  rw [funext fun w => h.snapshot w]
  simp only [keyOf_of_wraps h.wraps]

/-- A value that stands for an identity is no object. -/
theorem objectOf_of_identity {v : Value} {id : Identity}
    (h : m.shadow.keyOf v = some (.identity id)) : m.objectOf? v = none := by
  unfold ShadowState.keyOf at h
  split at h
  · rename_i _ raw found
    rw [objectOf?, Memory.valueOf, ShadowState.valueOf, found]
    rfl
  · rcases hv : v.object? with _ | object <;> rw [hv] at h <;> cases h

/-- A value with the key of an object is the object. -/
theorem eq_object_of_keyOf {v : Value} {id : ObjectId}
    (h : m.shadow.keyOf v = some (.object id)) : v = .object id := by
  unfold ShadowState.keyOf at h
  split at h
  · cases h
  · cases v with
    | object other =>
      cases h
      rfl
    | literal l => cases h
    | shadow handle identity raw => cases h

end Memory

open Memory

namespace MemoryM

/-- What a note leaves behind. -/
theorem relabel_apply (v : Value) (label : String) (m : Memory) :
    (relabel v label m).2 = { m with
      shadow := ShadowState.store { m.shadow with nextNode := m.shadow.nextNode + 1 + 2 } v
        { m.entryOf v with
          path := .join (m.shadow.nextNode + 1) label [(m.entryOf v).path] (m.snapshot v) } } :=
  rfl

/-- A note replaces the entry of the value, if it has a key, and no other entry. -/
theorem get?_relabel (v : Value) (label : String) (m : Memory) (key : TaintKey) :
    (relabel v label m).2.shadow.entries.get? key =
      if m.shadow.keyOf v = some key then
        some { m.entryOf v with
          path := .join (m.shadow.nextNode + 1) label [(m.entryOf v).path] (m.snapshot v) }
      else m.shadow.entries.get? key := by
  rw [relabel_apply]
  exact ShadowState.get?_store _ v _ key

theorem stored?_relabel (v : Value) (label : String) (m : Memory) (w : Value) :
    (relabel v label m).2.stored? w =
      if m.shadow.keyOf w = m.shadow.keyOf v ∧ (m.shadow.keyOf v).isSome then
        some { m.entryOf v with
          path := .join (m.shadow.nextNode + 1) label [(m.entryOf v).path] (m.snapshot v) }
      else m.stored? w := by
  rw [Memory.stored?, Memory.stored?, ShadowState.stored?, ShadowState.stored?,
    keyOf_of_wraps (marks_relabel v label m).wraps]
  rcases m.shadow.keyOf w with _ | key
  · rcases m.shadow.keyOf v with _ | own
    · rfl
    · rfl
  · rw [Option.bind_some, get?_relabel]
    by_cases same : m.shadow.keyOf v = some key
    · rw [if_pos same, if_pos ⟨same.symm, by rw [same]; rfl⟩]
    · rw [if_neg same, if_neg fun h => same h.1.symm]
      rfl

/-- The entry that a note leaves for a value has the bit that a query answered before. -/
theorem bit_entryOf (m : Memory) (v : Value) : (m.entryOf v).bit = m.taintBit v := by
  unfold Memory.entryOf Memory.taintBit
  rcases m.stored? v with _ | e
  · rfl
  · rfl

/-- A query for what is inside a value has the same answer whether an untainted entry stands for the
value or none does. -/
theorem answers_entryOf {m : Memory} {v w : Value} (same : m.shadow.keyOf w = m.shadow.keyOf v)
    (known : (m.shadow.keyOf v).isSome) :
    (match (m.entryOf v).chars with
      | some map => map.any
      | none => (m.members w).any m.taintBit) = m.anyProps w ∧
    (match (m.entryOf v).chars with
      | some map => map.all
      | none => !(m.members w).isEmpty && (m.members w).all m.taintBit) = m.allProps w := by
  have stored : m.stored? w = m.stored? v := by
    rw [Memory.stored?, Memory.stored?, ShadowState.stored?, ShadowState.stored?, same]
  unfold Memory.anyProps Memory.allProps Memory.entryOf
  rw [stored]
  rcases m.stored? v with _ | e
  · -- nothing was stored: the map of a string says no, and a string has no members
    rcases hk : m.shadow.keyOf v with _ | ⟨id⟩ | ⟨object⟩
    · rw [hk] at known
      cases known
    · have memberless : m.members w = [] := by
        unfold Memory.members
        rw [objectOf_of_identity (same.trans hk)]
      dsimp only [Option.bind_none]
      rw [memberless]
      unfold Memory.charMap?
      rcases m.stringOf? v with _ | s
      · exact ⟨rfl, rfl⟩
      · simp
    · rw [eq_object_of_keyOf hk]
      exact ⟨rfl, rfl⟩
  · exact ⟨rfl, rfl⟩

/-- No query of taint can tell whether a value was noted. -/
theorem answersAs_relabel (v : Value) (label : String) : Within AnswersAs (relabel v label) := by
  intro m
  have marks := marks_relabel v label m
  have bit (w : Value) : (relabel v label m).2.taintBit w = m.taintBit w := by
    rw [Memory.taintBit, stored?_relabel]
    split
    · rename_i h
      have stored : m.stored? w = m.stored? v := by
        rw [Memory.stored?, Memory.stored?, ShadowState.stored?, ShadowState.stored?, h.1]
      rw [Memory.taintBit, stored]
      exact bit_entryOf m v
    · rfl
  have bits : (relabel v label m).2.taintBit = m.taintBit := funext bit
  have members := members_of_wraps marks.heap marks.wraps
  refine ⟨marks.heap, marks.wraps, marks.frame, marks.saved, bit, fun w => ?_, fun w => ?_⟩
  · rw [Memory.anyProps, stored?_relabel, members, bits]
    by_cases h : m.shadow.keyOf w = m.shadow.keyOf v ∧ (m.shadow.keyOf v).isSome
    · rw [if_pos h]
      exact (answers_entryOf h.1 h.2).1
    · rw [if_neg h]
      rfl
  · rw [Memory.allProps, stored?_relabel, members, bits]
    by_cases h : m.shadow.keyOf w = m.shadow.keyOf v ∧ (m.shadow.keyOf v).isSome
    · rw [if_pos h]
      exact (answers_entryOf h.1 h.2).2
    · rw [if_neg h]
      rfl

/-- The values of a list are noted one after the other. -/
theorem answersAs_relabels (vs : List Value) (label : String) :
    Within AnswersAs (vs.forM (relabel · label)) :=
  .forM (fun v => answersAs_relabel v label) vs

/-- Where an entry is stored under a key, every value with that key puts a node on top of its
history. -/
theorem noted_stored (label : String) (vs : List Value) (key : TaintKey) (m : Memory)
    {e : TaintEntry} (stored : m.shadow.entries.get? key = some e) :
    ∃ e' tops, (vs.forM (relabel · label) m).2.shadow.entries.get? key = some e' ∧
      e'.path = Provenance.Node.under label tops e.path ∧
      tops.map (·.2) = (vs.filter fun w => m.shadow.keyOf w = some key).map m.snapshot := by
  induction vs generalizing m e with
  | nil => exact ⟨e, [], stored, rfl, rfl⟩
  | cons v rest ih =>
    have same := answersAs_relabel v label m
    have entries := get?_relabel v label m key
    have filtered := same.shown rest key
    by_cases own : m.shadow.keyOf v = some key
    · have entry : m.entryOf v = e := by
        rw [Memory.entryOf, Memory.stored?, ShadowState.stored?, own, Option.bind_some, stored]
      rw [if_pos own, entry] at entries
      obtain ⟨e', tops, found, path, shown⟩ := ih (relabel v label m).2 entries
      refine ⟨e', (m.shadow.nextNode + 1, m.snapshot v) :: tops, found, path, ?_⟩
      rw [List.map_cons, shown, filtered, List.filter_cons_of_pos (by simpa using own),
        List.map_cons]
    · rw [if_neg own, stored] at entries
      obtain ⟨e', tops, found, path, shown⟩ := ih (relabel v label m).2 entries
      refine ⟨e', tops, found, path, ?_⟩
      rw [shown, filtered, List.filter_cons_of_neg (by simpa using own)]

/-- Where no entry is stored under the key of an object, the first note creates it. -/
theorem noted_fresh (label : String) (vs : List Value) (id : ObjectId) (m : Memory)
    (missing : m.shadow.entries.get? (.object id) = none) (mem : .object id ∈ vs) :
    ∃ e' tops uid, (vs.forM (relabel · label) m).2.shadow.entries.get? (.object id) = some e' ∧
      e'.path = Provenance.Node.under label tops (.leaf uid (m.snapshot (.object id))) ∧
      tops.map (·.2) =
        (vs.filter fun w => m.shadow.keyOf w = some (.object id)).map m.snapshot := by
  induction vs generalizing m with
  | nil => exact nomatch mem
  | cons v rest ih =>
    have same := answersAs_relabel v label m
    have entries := get?_relabel v label m (.object id)
    have filtered := same.shown rest (.object id)
    -- the first mention makes the entry, over a leaf, and from then on it is a stored one
    by_cases own : m.shadow.keyOf v = some (.object id)
    · obtain rfl := eq_object_of_keyOf own
      have entry : (m.entryOf (.object id)).path =
          .leaf m.shadow.nextNode (m.snapshot (.object id)) := by
        rw [Memory.entryOf, Memory.stored?, ShadowState.stored?, own, Option.bind_some, missing]
      rw [if_pos own, entry] at entries
      obtain ⟨e', tops, found, path, shown⟩ := noted_stored label rest _ _ entries
      refine ⟨e', (m.shadow.nextNode + 1, m.snapshot (.object id)) :: tops, m.shadow.nextNode,
        found, path, ?_⟩
      rw [List.map_cons, shown, filtered, List.filter_cons_of_pos (by simpa using own),
        List.map_cons]
    · rw [if_neg own, missing] at entries
      have mem : .object id ∈ rest := by
        rcases List.mem_cons.mp mem with rfl | mem
        · exact absurd rfl own
        · exact mem
      obtain ⟨e', tops, uid, found, path, shown⟩ := ih (relabel v label m).2 entries mem
      refine ⟨e', tops, uid, found, ?_, ?_⟩
      · rw [path, same.snapshot]
      · rw [shown, filtered, List.filter_cons_of_neg (by simpa using own)]

/-- A tainted value has a key, and nothing is recorded under it only if the value is an object. -/
theorem key_of_tainted {m : Memory} {v : Value} (h : m.isTainted v = true) :
    ∃ key, m.shadow.keyOf v = some key ∧
      (m.shadow.entries.get? key = none → ∃ id, key = .object id) := by
  -- taint is stored for the value or for a member of it, and only objects have members
  rcases hk : m.shadow.keyOf v with _ | ⟨id⟩ | ⟨id⟩
  · have stored : m.stored? v = none := by
      rw [Memory.stored?, ShadowState.stored?, hk]
      rfl
    have memberless : m.members v = [] := by
      unfold Memory.members
      cases v with
      | object id => cases hk
      | literal l => rfl
      | shadow handle identity raw =>
        unfold ShadowState.keyOf at hk
        rcases found : m.shadow.lookup? (.shadow handle identity raw) with _ | x
        · rw [objectOf?, Memory.valueOf, ShadowState.valueOf, found]
          rfl
        · rw [found] at hk
          cases hk
    rw [Memory.isTainted, Memory.taintBit, Memory.anyProps, stored, memberless] at h
    cases h
  · refine ⟨.identity id, rfl, fun missing => ?_⟩
    have stored : m.stored? v = none := by
      rw [Memory.stored?, ShadowState.stored?, hk]
      exact missing
    have memberless : m.members v = [] := by
      unfold Memory.members
      rw [objectOf_of_identity hk]
    rw [Memory.isTainted, Memory.taintBit, Memory.anyProps, stored, memberless] at h
    cases h
  · exact ⟨.object id, rfl, fun _ => ⟨id, rfl⟩⟩

/-- After a list was noted, the recorded history of every tainted value in it has the notes of the
list on top. -/
theorem noted_history (label : String) {vs : List Value} {v : Value} (mem : v ∈ vs) {m : Memory}
    (tainted : m.isTainted v = true) :
    ∃ e, (vs.forM (relabel · label) m).2.stored? v = some e ∧ m.Noted label vs v e.path := by
  obtain ⟨key, hk, fresh⟩ := key_of_tainted tainted
  have stored? (m' : Memory) (wraps : m'.shadow.wraps = m.shadow.wraps) :
      m'.stored? v = m'.shadow.entries.get? key := by
    rw [Memory.stored?, ShadowState.stored?, keyOf_of_wraps wraps, hk]
    rfl
  have before := stored? m rfl
  have after := stored? _ (answersAs_relabels vs label m).wraps
  rcases found : m.shadow.entries.get? key with _ | e
  · obtain ⟨id, rfl⟩ := fresh found
    obtain rfl := eq_object_of_keyOf hk
    obtain ⟨e', tops, uid, found', path, shown⟩ := noted_fresh label vs id m found mem
    refine ⟨e', by rw [after, found'], _, tops, ?_, path, by rw [shown, hk]⟩
    rw [IsHistory, before, found]
    exact ⟨uid, rfl⟩
  · obtain ⟨e', tops, found', path, shown⟩ := noted_stored label vs key m found
    refine ⟨e', by rw [after, found'], _, tops, ?_, path, by rw [shown, hk]⟩
    rw [IsHistory, before, found]

end MemoryM

end ShadowTaint
