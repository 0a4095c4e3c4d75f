import ShadowTaint.Proofs.Quiet
/-!
# What the taint rules record

Nearly every rule stores one entry, for one value: what it found out about the taint of the value,
under a new node over the histories of some other values. This file says for each rule for which
value it does so, whether the entry is tainted, and over which histories.

## Main definitions

- `Memory.ownTaint`: a value is tainted by its own entry.
- `Memory.HistoryAt`: a node is the history of a value.
- `Memory.Records`: one entry was stored, under a new node.

## Main statements

- `Memory.Records.get?`: what is recorded afterwards.
- `ObjectRule.records_getField`, `ObjectRule.records_putField`, `ObjectRule.records_call`: the rules of
  objects; those of texts, containers and arrays follow.

## Design notes

Histories are read one after the other, and each reading may use up the number of a node. All of them
are related to the memory in which the rule began, so that no rule has to follow the numbers.
-/

namespace ShadowTaint

open Memory Policy

theorem Provenance.Node.uid_join (uid : Nat) (label : String) (parents : List Node)
    (value : String) : (Node.join uid label parents value).uid = uid := by
  unfold join
  split <;> rfl

namespace Memory

/-- Whether the value itself is tainted by its own entry, whatever lies inside it. -/
def ownTaint (m : Memory) (v : Value) : Bool := (m.entryOf v).isTainted

/-- The node is the history of the value: the recorded one, or an untainted root with a new number. -/
def HistoryAt (m : Memory) (v : Value) (n : Provenance.Node) : Prop :=
  match m.stored? v with
  | some e => n = e.path
  | none => ∃ uid shown, m.shadow.nextNode ≤ uid ∧ n = .leaf uid shown

/-- The node is a new one over the histories of the sources. -/
structure Joins (m : Memory) (next : Nat) (label : String) (sources : List Value)
    (n : Provenance.Node) : Prop where
  fresh : m.shadow.nextNode ≤ n.uid
  numbered : n.uid < next
  histories : ∃ ns shown, n = .join n.uid label ns shown ∧ List.Forall₂ m.HistoryAt sources ns

/-- One entry was stored, for a value: whether it is tainted, and the values over whose histories its
new node is. -/
structure Records (m m' : Memory) (v : Value) (tainted : Bool) (label : String)
    (sources : List Value) : Prop where
  marks : m.Marks m'
  nodes : m.shadow.nextNode ≤ m'.shadow.nextNode
  stored : ∃ e, e.isTainted = tainted ∧ m'.shadow.entries = (m.shadow.store v e).entries ∧
    m.Joins m'.shadow.nextNode label sources e.path

end Memory

theorem TaintEntry.isTainted_uniform (m : Memory) (v : Value) (tainted : Bool)
    (path : Provenance.Node) :
    (TaintEntry.mk tainted (m.charMap? v tainted) path).isTainted = tainted := by
  unfold isTainted charMap?
  rcases m.stringOf? v with _ | s
  · simp
  · cases tainted <;> simp [CharMap.uniform, CharMap.any]

theorem CharMap.any_eq_false_iff (map : CharMap) :
    map.any = false ↔ map.length = false ∧ ∀ b ∈ map.chars, b = false := by
  simp [CharMap.any]

/-- An entry is untainted exactly if its bit is clear, and so are the characters and the length of its
map, if it has one. -/
theorem TaintEntry.isTainted_eq_false_iff (e : TaintEntry) : e.isTainted = false ↔
    e.bit = false ∧ ∀ map, e.chars = some map → map.length = false ∧ ∀ b ∈ map.chars, b = false := by
  rw [isTainted, Bool.or_eq_false_iff]
  rcases e.chars with _ | map
  · simp
  · simp [CharMap.any_eq_false_iff]

/-- A map with a tainted key has taint in it. -/
theorem CharMap.any_of_get? {map : CharMap} {key : String}
    (h : (map.get? key).getD false = true) : map.any = true := by
  by_contra clean
  rw [Bool.not_eq_true, any_eq_false_iff] at clean
  unfold get? at h
  split at h
  · cases clean.1.symm.trans h
  · rcases found : (Text.readIndex? key).bind fun i => map.chars[i]? with _ | b <;> rw [found] at h
    · cases h
    · obtain ⟨i, -, at_i⟩ := Option.bind_eq_some_iff.mp found
      cases (clean.2 b (List.mem_of_getElem? at_i)).symm.trans h

theorem CharMap.any_ofBits (bits : List Bool) : (CharMap.ofBits bits).any = bits.any id := by
  simp [ofBits, CharMap.any]

theorem CharMap.all_ofBits (bits : List Bool) :
    (CharMap.ofBits bits).all = (bits.any id && bits.all id) := rfl

theorem CharMap.all_or_any (map : CharMap) : (map.all || map.any) = map.any := by
  unfold CharMap.all CharMap.any
  cases map.length <;> simp

theorem CharMap.any_set?_true {map map' : CharMap} {key : String}
    (set : map.set? key true = some map') : map'.any = true := by
  unfold CharMap.set? at set
  split at set
  · cases set
    rfl
  · split at set
    · cases set
    · split at set
      · cases set
        simp [setChar, CharMap.any]
      · cases set

/-- Clearing a character leaves no taint where there was none. -/
theorem CharMap.any_set? {map map' : CharMap} {key : String} (clean : map.any = false)
    (set : map.set? key false = some map') : map'.any = false := by
  rw [any_eq_false_iff] at clean ⊢
  unfold CharMap.set? at set
  split at set
  · cases set
    exact ⟨rfl, clean.2⟩
  · split at set
    · cases set
    · split at set
      · cases set
        refine ⟨by rw [setChar, clean.1]; rfl, fun b hb => ?_⟩
        rcases List.mem_or_eq_of_mem_set hb with old | new
        · exact clean.2 b old
        · exact new
      · cases set

namespace Policy.NodesUsed

variable {m m' : Memory}

theorem refl (m : Memory) : NodesUsed m m := ⟨0, rfl⟩

theorem quiet (h : NodesUsed m m') : m.Quiet m' := by
  obtain ⟨count, rfl⟩ := h
  exact ⟨rfl, Nat.le_add_right _ _⟩

theorem marks (h : NodesUsed m m') : m.Marks m' := by
  obtain ⟨count, rfl⟩ := h
  exact MemoryM.marks_useNodes count m

theorem more (h : NodesUsed m m') (count : Nat) :
    NodesUsed m { m' with shadow := { m'.shadow with nextNode := m'.shadow.nextNode + count } } := by
  obtain ⟨n, rfl⟩ := h
  exact ⟨n + count, by rw [← Nat.add_assoc]⟩

end Policy.NodesUsed

namespace Memory

variable {m : Memory} {v : Value}

theorem ownTaint_of_stored {e : TaintEntry} (h : m.stored? v = some e) : m.ownTaint v = e.isTainted := by
  rw [ownTaint, Memory.entryOf, h]

theorem ownTaint_of_none (h : m.stored? v = none) : m.ownTaint v = false := by
  rw [ownTaint, Memory.entryOf, h]
  exact TaintEntry.isTainted_uniform m v false _

theorem ownTaint_of_bit (h : m.taintBit v = true) : m.ownTaint v = true := by
  rw [Memory.taintBit] at h
  rcases stored : m.stored? v with _ | e <;> rw [stored] at h
  · cases h
  · rw [ownTaint_of_stored stored, TaintEntry.isTainted, show e.bit = true from h, Bool.true_or]

/-- A value counts as tainted if it is so by its own entry. -/
theorem isTainted_of_ownTaint (h : m.ownTaint v = true) : m.isTainted v = true := by
  rcases stored : m.stored? v with _ | e
  · rw [ownTaint_of_none stored] at h
    cases h
  · rw [ownTaint_of_stored stored, TaintEntry.isTainted] at h
    rw [Memory.isTainted, Memory.taintBit, anyProps, stored]
    rcases chars : e.chars with _ | map <;> rw [chars] at h
    · rw [Option.any_none, Bool.or_false] at h
      rw [Option.any_some, h, Bool.true_or]
    · rw [Option.any_some] at h
      rw [Option.any_some, Option.bind_some, chars]
      exact h

/-- No character of a value is tainted if the value is not by its own entry. -/
theorem clean_charBits (h : m.ownTaint v = false) : ∀ b ∈ m.charBits v, b = false := by
  obtain ⟨bit, map⟩ := (m.entryOf v).isTainted_eq_false_iff.mp h
  unfold Memory.charBits
  rcases m.stringOf? v with _ | s
  · intro b hb
    exact (List.eq_of_mem_replicate hb).trans bit
  · intro b hb
    obtain ⟨i, -, rfl⟩ := List.mem_map.mp hb
    rw [bit, Bool.false_or]
    rcases chars : (m.entryOf v).chars with _ | map'
    · rfl
    · show map'.chars.getD i false = false
      rw [List.getD_eq_getElem?_getD]
      rcases at_i : map'.chars[i]? with _ | b
      · rfl
      · exact (map map' chars).2 b (List.mem_of_getElem? at_i)

theorem ownTaint_of_charBits (h : true ∈ m.charBits v) : m.ownTaint v = true := by
  rcases own : m.ownTaint v
  · cases clean_charBits own true h
  · rfl

/-- What is tainted after one of its characters was cleared was so before. -/
theorem ownTaint_of_cleared {key : String} {map : CharMap}
    (set : (((m.entryOf v).chars.or (m.charMap? v false)).getD (.uniform 0 false)).set? key false =
      some map) (any : map.any = true) : m.ownTaint v = true := by
  by_contra own
  rw [Bool.not_eq_true, ownTaint, TaintEntry.isTainted, Bool.or_eq_false_iff] at own
  refine Bool.false_ne_true (.trans (CharMap.any_set? ?_ set).symm any)
  -- the map that is changed is the recorded one, or one of untainted characters
  rcases chars : (m.entryOf v).chars with _ | recorded
  · have fresh := TaintEntry.isTainted_uniform m v false default
    rw [TaintEntry.isTainted, Bool.false_or] at fresh
    rcases made : m.charMap? v false with _ | map
    · rfl
    · rw [made] at fresh
      exact fresh
  · rw [chars] at own
    exact own.2

end Memory

namespace Memory.Records

variable {m m' : Memory} {v : Value} {tainted : Bool} {label : String} {sources : List Value}

/-- Afterwards the entry is recorded under the key of the value, and everything else is as before. -/
theorem get? (h : m.Records m' v tainted label sources) :
    ∃ e, e.isTainted = tainted ∧ m.Joins m'.shadow.nextNode label sources e.path ∧
      ∀ key, m'.shadow.entries.get? key =
        if m.shadow.keyOf v = some key then some e else m.shadow.entries.get? key := by
  obtain ⟨e, isTainted, entries, joins⟩ := h.stored
  exact ⟨e, isTainted, joins, fun key => by rw [entries, ShadowState.get?_store]⟩

end Memory.Records

namespace MemoryM

section Steps

variable {m₀ m : Memory}

theorem entryOf_used (used : NodesUsed m₀ m) (v : Value) :
    (m.entryOf v).bit = m₀.taintBit v ∧ (m.entryOf v).chars = (m₀.entryOf v).chars ∧
      m₀.HistoryAt v (m.entryOf v).path := by
  have nodes := used.quiet.nodes
  obtain ⟨count, rfl⟩ := used
  refine ⟨(bit_entryOf _ v).trans rfl, ?_⟩
  generalize same : ({ m₀ with shadow := { m₀.shadow with
    nextNode := m₀.shadow.nextNode + count } } : Memory) = m at nodes ⊢
  have stored : m.stored? v = m₀.stored? v := by subst same; rfl
  have chars : m.charMap? v false = m₀.charMap? v false := by subst same; rfl
  rw [Memory.HistoryAt, Memory.entryOf, Memory.entryOf, stored]
  rcases m₀.stored? v with _ | e
  · exact ⟨chars, _, _, nodes, rfl⟩
  · exact ⟨rfl, rfl⟩

/-- Reading the entry of a value uses up numbers only. -/
theorem entry_at (used : NodesUsed m₀ m) (v : Value) :
    ∃ e m₁, entry v m = (e, m₁) ∧ NodesUsed m₀ m₁ ∧ m₀.HistoryAt v e.path ∧
      e.bit = m₀.taintBit v ∧ e.chars = (m₀.entryOf v).chars := by
  obtain ⟨bit, chars, history⟩ := entryOf_used used v
  exact ⟨_, _, rfl, used.more 1, history, bit, chars⟩

theorem history_at (used : NodesUsed m₀ m) (v : Value) :
    ∃ n m₁, history v m = (n, m₁) ∧ NodesUsed m₀ m₁ ∧ m₀.HistoryAt v n :=
  ⟨_, _, rfl, used.more 1, (entryOf_used used v).2.2⟩

theorem entries_at (used : NodesUsed m₀ m) (vs : List Value) :
    ∃ es m₁, vs.mapM entry m = (es, m₁) ∧ NodesUsed m₀ m₁ ∧
      List.Forall₂ m₀.HistoryAt vs (es.map (·.path)) ∧
      es.any (·.bit) = vs.any m₀.taintBit := by
  induction vs generalizing m with
  | nil => exact ⟨[], m, rfl, used, .nil, rfl⟩
  | cons v rest ih =>
    obtain ⟨e, m₁, read, used₁, history, bit, -⟩ := entry_at used v
    obtain ⟨es, m₂, reads, used₂, histories, bits⟩ := ih used₁
    refine ⟨e :: es, m₂, ?_, used₂, .cons history histories, ?_⟩
    · rw [List.mapM_cons, bind_apply, read, bind_apply, reads]
      rfl
    · rw [List.any_cons, List.any_cons, bit, bits]

theorem histories_at (used : NodesUsed m₀ m) (vs : List Value) :
    ∃ ns m₁, vs.mapM history m = (ns, m₁) ∧ NodesUsed m₀ m₁ ∧ List.Forall₂ m₀.HistoryAt vs ns := by
  induction vs generalizing m with
  | nil => exact ⟨[], m, rfl, used, .nil⟩
  | cons v rest ih =>
    obtain ⟨n, m₁, read, used₁, history⟩ := history_at used v
    obtain ⟨ns, m₂, reads, used₂, histories⟩ := ih used₁
    refine ⟨n :: ns, m₂, ?_, used₂, .cons history histories⟩
    rw [List.mapM_cons, bind_apply, read, bind_apply, reads]
    rfl

variable {sources : List Value} {ns : List Provenance.Node}

/-- A node over histories that were read since is new. -/
theorem joins_node (used : NodesUsed m₀ m) (histories : List.Forall₂ m₀.HistoryAt sources ns)
    (label shown : String) : m₀.Joins (m.shadow.nextNode + 2) label sources
      (.join m.shadow.nextNode label ns shown) := by
  have uid := Provenance.Node.uid_join m.shadow.nextNode label ns shown
  exact {
    fresh := by
      rw [uid]
      exact used.quiet.nodes
    numbered := by
      rw [uid]
      omega
    histories := ⟨ns, shown, by rw [uid], histories⟩ }

/-- An entry that is stored under a new node over histories that were read since. -/
theorem records_store (used : NodesUsed m₀ m) (histories : List.Forall₂ m₀.HistoryAt sources ns)
    (v : Value) (bit : Bool) (chars : Option CharMap) (label shown : String) :
    m₀.Records (store v ⟨bit, chars, .join m.shadow.nextNode label ns shown⟩
        { m with shadow := { m.shadow with nextNode := m.shadow.nextNode + 2 } }).2 v
      (bit || chars.any CharMap.any) label sources where
  marks := trans_of Marks (used.more 2).marks (marks_store v _ _)
  nodes := by
    refine Nat.le_trans (used.more 2).quiet.nodes ?_
    show _ ≤ (ShadowState.store _ v _).nextNode
    unfold ShadowState.store
    split <;> exact Nat.le_refl _
  stored := by
    obtain ⟨count, rfl⟩ := used
    refine ⟨⟨bit, chars, .join (m₀.shadow.nextNode + count) label ns shown⟩, rfl, ?_, ?_⟩
    · refine ShadowState.entries_store ?_ ?_ v _
      · rfl
      · rfl
    · have joins := joins_node (m := { m₀ with shadow := { m₀.shadow with
        nextNode := m₀.shadow.nextNode + count } }) ⟨count, rfl⟩ histories label shown
      show m₀.Joins (ShadowState.store _ v _).nextNode label sources _
      unfold ShadowState.store
      split <;> exact joins

theorem records_record (used : NodesUsed m₀ m) (histories : List.Forall₂ m₀.HistoryAt sources ns)
    (v : Value) (bit : Bool) (chars : Option CharMap) (label : String) :
    m₀.Records (record v bit chars label ns m).2 v (bit || chars.any CharMap.any) label sources :=
  records_store used histories v bit chars label _

theorem records_recordWhole (used : NodesUsed m₀ m)
    (histories : List.Forall₂ m₀.HistoryAt sources ns) (v : Value) (tainted : Bool)
    (label : String) : m₀.Records (recordWhole v tainted label ns m).2 v tainted label sources := by
  have recorded := records_record used histories v tainted (m.charMap? v tainted) label
  rwa [show (tainted || (m.charMap? v tainted).any CharMap.any) = tainted from
    TaintEntry.isTainted_uniform m v tainted default] at recorded

end Steps

end MemoryM

theorem Grain.isTainted_of_bit (grain : Grain) {m : Memory} {v : Value}
    (h : m.taintBit v = true) : grain.isTainted m v = true := by
  cases grain with
  | imprecise =>
    show (m.taintBit v || m.anyProps v) = true
    rw [h, Bool.true_or]
  | precise => exact h

/-- A map that says of every character what the bit of a value says has no taint of its own. -/
theorem Grain.isTainted_charMap (grain : Grain) {m : Memory} {v : Value} {bit : Bool}
    (h : bit = m.taintBit v) (result : Value) :
    (grain.isTainted m v || (m.charMap? result bit).any CharMap.any) = grain.isTainted m v := by
  subst h
  rcases tainted : m.taintBit v
  · have map := TaintEntry.isTainted_uniform m result false default
    rw [TaintEntry.isTainted, Bool.false_or] at map
    rw [map, Bool.or_false]
  · rw [grain.isTainted_of_bit tainted, Bool.true_or]

namespace ObjectRule

open MemoryM

/-- A property that is read is recorded over the history of the object, and over its own, if it has
one. -/
theorem records_getField (grain : Grain) (ops : Operands) (m : Memory) :
    (∃ known, m.stored? ops.value = some known ∧ m.Records (getField grain ops m).2 ops.value
      (grain.isTainted m ops.base || grain.isTainted m ops.value || known.chars.any CharMap.any)
      "object.GetField" [ops.base, ops.value]) ∨
    (m.stored? ops.value = none ∧ m.Records (getField grain ops m).2 ops.value
      (grain.isTainted m ops.base) "object.GetField" [ops.base]) := by
  obtain ⟨base, m₁, read, used, history, bit, -⟩ := entry_at (.refl m) ops.base
  unfold getField
  rw [bind_apply, get_apply]
  dsimp only
  rw [bind_apply, read]
  dsimp only
  rcases stored : m.stored? ops.value with _ | known
  · refine .inr ⟨rfl, ?_⟩
    have recorded := records_record used (.cons history .nil) ops.value (grain.isTainted m ops.base)
      (m.charMap? ops.value base.bit) "object.GetField"
    rwa [grain.isTainted_charMap bit] at recorded
  · refine .inl ⟨known, rfl, ?_⟩
    have own : m.HistoryAt ops.value known.path := by
      rw [HistoryAt, stored]
    exact records_record used (.cons history (.cons own .nil)) ops.value _ known.chars _

/-- A store that is not refused is recorded for the object, if that is tracked as a whole. -/
theorem records_putField (grain : Grain) (ops : Operands) (m : Memory) :
    (∃ f m', checkPollution ops m = (.error (.finding f), m') ∧
      putField grain ops m = (.error (.finding f), m') ∧ NodesUsed m m') ∨
    (grain = .precise ∧ putField grain ops m = (.ok (), m)) ∨
    ∃ m', grain = .imprecise ∧ checkPollution ops m = (.ok (), m) ∧
      putField grain ops m = (.ok (), m') ∧ m.Records m' ops.base
      (m.isTainted ops.base || m.isTainted ops.value) "object.putField" [ops.base, ops.value] := by
  rcases checkPollution_cases ops m with passed | ⟨f, m', refused, used⟩
  · right
    unfold putField
    rw [bind_apply_ok passed]
    cases grain with
    | precise => exact .inl ⟨rfl, rfl⟩
    | imprecise =>
      have base := (entryOf_used (.refl m) ops.base).2.2
      have written := (entryOf_used ((NodesUsed.refl m).more 1) ops.value).2.2
      have isTainted := TaintEntry.isTainted_uniform m ops.base
        (m.isTainted ops.base || m.isTainted ops.value) default
      have recorded := records_store (((NodesUsed.refl m).more 1).more 1)
        (.cons base (.cons written .nil)) ops.base (m.isTainted ops.base || m.isTainted ops.value)
        (m.charMap? ops.base (m.isTainted ops.base || m.isTainted ops.value)) "object.putField"
        (m.snapshot ops.value)
      rw [TaintEntry.isTainted] at isTainted
      rw [isTainted] at recorded
      exact .inr ⟨_, rfl, passed, rfl, recorded⟩
  · left
    refine ⟨f, m', refused, ?_, used⟩
    unfold putField
    exact bind_apply_error refused

/-- The result of a binary operator is recorded over the histories of the operands. -/
theorem records_binary (grain : Grain) (op : String) (ops : Operands) (m : Memory) :
    m.Records (binary grain op ops m).2 ops.value
      (grain.isTainted m ops.base || grain.isTainted m ops.offset) op [ops.base, ops.offset] := by
  obtain ⟨left, m₁, readLeft, used₁, historyLeft⟩ := history_at (.refl m) ops.base
  obtain ⟨right, m₂, readRight, used₂, historyRight⟩ := history_at used₁ ops.offset
  unfold binary
  rw [bind_apply, get_apply]
  dsimp only
  rw [bind_apply, readLeft]
  dsimp only
  rw [bind_apply, readRight]
  exact records_recordWhole used₂ (.cons historyLeft (.cons historyRight .nil)) _ _ _

/-- The result of a unary operator is recorded over the history of the operand. -/
theorem records_unary (grain : Grain) (operand result : Value) (m : Memory) :
    m.Records (unary grain operand result m).2 result (grain.isTainted m operand) "object.Unary"
      [operand] := by
  have source := entryOf_used (.refl m) operand
  have recorded := records_store ((NodesUsed.refl m).more 1) (.cons source.2.2 .nil) result
    (grain.isTainted m operand) (m.charMap? result (m.entryOf operand).bit) "object.Unary"
    (m.snapshot operand)
  rwa [grain.isTainted_charMap source.1] at recorded

/-- The result of a native function is recorded over the history of a tainted receiver, or else over
those of the arguments if one of them is tainted. -/
theorem records_call (receiver : Option Grain) (c : NativeCall) (m : Memory) :
    if (receiver.any fun grain => grain.isTainted m c.base || m.allProps c.base) then
      m.Records (call receiver c m).2 c.result true ("imprecise:" ++ m.functionName c.f) [c.base]
    else if c.args.any m.taintBit then
      m.Records (call receiver c m).2 c.result true ("imprecise:" ++ m.functionName c.f) c.args
    else NodesUsed m (call receiver c m).2 := by
  unfold call
  rw [bind_apply, get_apply]
  dsimp only
  split
  · rename_i tainted
    obtain ⟨base, m₁, read, used, history⟩ := history_at (.refl m) c.base
    rw [bind_apply, read]
    exact records_recordWhole used (.cons history .nil) _ _ _
  · obtain ⟨entries, m₁, read, used, histories, bits⟩ := entries_at (.refl m) c.args
    rw [bind_apply, read]
    dsimp only
    rw [bits]
    split
    · exact records_recordWhole used histories _ _ _
    · exact used

end ObjectRule

namespace TextRule

open MemoryM

/-- The taint of characters is recorded for a string with as many characters. -/
theorem records_storeBits {m₀ m : Memory} (used : NodesUsed m₀ m) {sources : List Value}
    {ns : List Provenance.Node} (histories : List.Forall₂ m₀.HistoryAt sources ns) (result : Value)
    (bits : List Bool) (label : String) :
    if (m₀.stringOf? result).map String.length = some bits.length then
      (storeBits result bits label ns m).1 = true ∧
        m₀.Records (storeBits result bits label ns m).2 result (bits.any id) label sources
    else storeBits result bits label ns m = (false, m) := by
  have same : m.stringOf? result = m₀.stringOf? result := by
    obtain ⟨count, rfl⟩ := used
    rfl
  unfold storeBits
  rw [bind_apply, get_apply]
  dsimp only
  rw [same]
  by_cases fits : (m₀.stringOf? result).map String.length = some bits.length
  · rw [if_pos fits, if_neg (by simp [fits])]
    refine ⟨rfl, ?_⟩
    have recorded := records_record used histories result (CharMap.ofBits bits).all
      (some (CharMap.ofBits bits)) label
    have isTainted : ((CharMap.ofBits bits).all ||
        (some (CharMap.ofBits bits)).any CharMap.any) = bits.any id := by
      rw [Option.any_some, CharMap.any_ofBits, CharMap.all_ofBits]
      cases bits.any id <;> simp
    rwa [isTainted] at recorded
  · rw [if_neg fits, if_pos (by simpa using fits)]
    rfl

end TextRule

namespace ContainerRule

open MemoryM

theorem records_taintWhole (label : String) (v : Value) (m : Memory) :
    m.Records (taintWhole label v m).2 v true label [v] := by
  obtain ⟨e, m₁, read, used, history, -⟩ := entry_at (.refl m) v
  unfold taintWhole
  rw [bind_apply, read]
  have recorded := records_record used (.cons history .nil) v true e.chars label
  rwa [Bool.true_or] at recorded

/-- What is taken out of a container is recorded over the history of the container. -/
theorem records_taintRead (label : String) (c : NativeCall) (m : Memory) :
    m.Records (taintRead label c m).2 c.result
      (m.taintBit c.result || m.taintBit c.base || m.anyProps c.base) label [c.base] := by
  obtain ⟨base, m₁, read, used, history, bit, -⟩ := entry_at (.refl m) c.base
  unfold taintRead
  rw [bind_apply, get_apply]
  dsimp only
  rw [bind_apply, read, bit]
  exact records_recordWhole used (.cons history .nil) _ _ _

theorem records_taintReceiver (label : String) (c : NativeCall) (m : Memory) :
    if c.args.any m.isTainted then m.Records (taintReceiver label c m).2 c.base true label [c.base]
    else taintReceiver label c m = ((), m) := by
  unfold taintReceiver
  rw [bind_apply, get_apply]
  dsimp only
  split
  · exact records_taintWhole label c.base m
  · rfl

end ContainerRule

namespace ArrayRule

open MemoryM

theorem records_push (c : NativeCall) (m : Memory) :
    (push c m).1 = true ∧ if c.args.any m.taintBit then
      m.Records (push c m).2 c.base true "model:array.push" [c.base] else (push c m).2 = m := by
  unfold push
  rw [bind_apply, get_apply]
  dsimp only
  split
  · exact ⟨rfl, ContainerRule.records_taintWhole _ c.base m⟩
  · exact ⟨rfl, rfl⟩

/-- The taint of the characters of a joined text. -/
def joinedBits (m : Memory) (c : NativeCall) : List Bool :=
  (List.replicate (TextRule.separatorLength m c.args[0]? 1) false).intercalate
    ((elements m c.base).map (elementBits m))

/-- What a joined list holds is in the separator or in one of the parts. -/
theorem mem_of_mem_intercalate {α : Type} {a : α} {separator : List α} {parts : List (List α)}
    (h : a ∈ separator.intercalate parts) : a ∈ separator ∨ ∃ part ∈ parts, a ∈ part := by
  induction parts with
  | nil => cases h
  | cons part rest ih =>
    rcases rest with _ | ⟨next, rest⟩
    · exact .inr ⟨part, List.mem_cons_self, by simpa [List.intercalate] using h⟩
    · rw [List.intercalate_cons_cons, List.mem_append, List.mem_append] at h
      rcases h with (here | separator) | later
      · exact .inr ⟨part, List.mem_cons_self, here⟩
      · exact .inl separator
      · rcases ih later with separator | ⟨part, mem, held⟩
        · exact .inl separator
        · exact .inr ⟨part, List.mem_cons_of_mem _ mem, held⟩

/-- A character of a joined text is tainted only if an element is. -/
theorem ownTaint_of_joinedBits {m : Memory} {c : NativeCall} (h : true ∈ joinedBits m c) :
    ∃ v ∈ elements m c.base, m.ownTaint v = true := by
  rcases mem_of_mem_intercalate h with separator | ⟨part, mem, held⟩
  · cases List.eq_of_mem_replicate separator
  · obtain ⟨v, element, rfl⟩ := List.mem_map.mp mem
    unfold elementBits at held
    split at held
    · cases held
    · exact ⟨v, element, ownTaint_of_charBits held⟩

/-- A joined text is recorded over the histories of the elements. -/
theorem records_join (c : NativeCall) (m : Memory) :
    if c.args.length ≤ 1 ∧ (m.stringOf? c.result).map String.length = some (joinedBits m c).length then
      (join c m).1 = true ∧ m.Records (join c m).2 c.result ((joinedBits m c).any id)
        "model:array.join" (elements m c.base)
    else (join c m).1 = false ∧ NodesUsed m (join c m).2 := by
  unfold join
  by_cases few : 1 < c.args.length
  · rw [if_pos few, if_neg (by omega)]
    exact ⟨rfl, .refl m⟩
  · obtain ⟨ns, m₁, read, used, histories⟩ := histories_at (.refl m) (elements m c.base)
    rw [if_neg few, bind_apply, get_apply]
    dsimp only
    rw [bind_apply, read]
    have stored := TextRule.records_storeBits used histories c.result (joinedBits m c)
      "model:array.join"
    by_cases fits : (m.stringOf? c.result).map String.length = some (joinedBits m c).length
    · rw [if_pos fits] at stored
      rw [if_pos ⟨by omega, fits⟩]
      exact stored
    · rw [if_neg fits] at stored
      rw [if_neg fun h => fits h.2]
      show (TextRule.storeBits c.result (joinedBits m c) "model:array.join" ns m₁).1 = false ∧
        NodesUsed m (TextRule.storeBits c.result (joinedBits m c) "model:array.join" ns m₁).2
      rw [stored]
      exact ⟨rfl, used⟩

/-- What the rule of a mapping function does for one element. -/
def mapElement (whole : Bool) (pair : Value × Value) : MemoryM Unit := do
  let m ← get
  if !(← history pair.2).hasParents then
    recordWhole pair.2 (whole || m.isTainted pair.1) "model:array.map" [← history pair.1]

/-- An element that has no history of its own is recorded over that of the element that it was
computed from. -/
theorem records_mapElement (whole : Bool) (pair : Value × Value) (m : Memory) :
    if (m.entryOf pair.2).path.hasParents then NodesUsed m (mapElement whole pair m).2
    else m.Records (mapElement whole pair m).2 pair.2 (whole || m.isTainted pair.1)
      "model:array.map" [pair.1] := by
  have input := (entryOf_used ((NodesUsed.refl m).more 1) pair.1).2.2
  unfold mapElement
  rw [bind_apply, get_apply]
  dsimp only
  rw [bind_apply]
  by_cases own : (m.entryOf pair.2).path.hasParents = true
  · rw [if_pos own]
    show NodesUsed m ((if (!(m.entryOf pair.2).path.hasParents) = true then _ else _ :
      MemoryM Unit) _).2
    rw [if_neg (by simp [own])]
    exact (NodesUsed.refl m).more 1
  · rw [if_neg own]
    show m.Records ((if (!(m.entryOf pair.2).path.hasParents) = true then _ else _ :
      MemoryM Unit) _).2 _ _ _ _
    rw [if_pos (by simp [own])]
    exact records_recordWhole (((NodesUsed.refl m).more 1).more 1) (.cons input .nil) pair.2 _ _

theorem mapped_apply (c : NativeCall) (m : Memory) :
    mapped c m = if (elements m c.base).length = (elements m c.result).length then
      (true, (((elements m c.base).zip (elements m c.result)).forM
        (mapElement (m.taintBit c.base)) m).2) else (false, m) := by
  unfold mapped
  rw [bind_apply, get_apply]
  dsimp only
  by_cases same : (elements m c.base).length = (elements m c.result).length
  · rw [if_pos same, if_neg (by simp [same])]
    rfl
  · rw [if_neg same, if_pos (by simp [same])]
    rfl

/-- A value without a history of its own is recorded over those of the elements from the first tainted
one on. -/
theorem records_reduced (c : NativeCall) (m : Memory) :
    (reduced c m).1 = true ∧
    if (m.entryOf c.result).path.hasParents || m.anyProps c.result then (reduced c m).2 = m
    else m.Records (reduced c m).2 c.result (m.taintBit c.base ||
        !(fromFirstTainted m (m.taintBit c.base) (elements m c.base)).isEmpty) "model:array.reduce"
      (fromFirstTainted m (m.taintBit c.base) (elements m c.base)) := by
  unfold reduced
  rw [bind_apply, get_apply]
  dsimp only
  split
  · exact ⟨rfl, rfl⟩
  · obtain ⟨ns, m₁, read, used, histories⟩ := histories_at (.refl m)
      (fromFirstTainted m (m.taintBit c.base) (elements m c.base))
    rw [bind_apply, read]
    exact ⟨rfl, records_recordWhole used histories _ _ _⟩

end ArrayRule

namespace MemoryM

/-- Tainting or clearing a value is recorded over its own history. -/
theorem records_setTaint (v : Value) (tainted : Bool) (m : Memory) :
    m.Records (setTaint v tainted m).2 v tainted (taintLabel tainted) [v] := by
  obtain ⟨n, m₁, read, used, history⟩ := history_at (.refl m) v
  unfold setTaint
  rw [bind_apply, read]
  exact records_recordWhole used (.cons history .nil) v tainted _

/-- A note in a history leaves the taint as it is. -/
theorem records_relabel (v : Value) (label : String) (m : Memory) :
    m.Records (relabel v label m).2 v (m.entryOf v).isTainted label [v] :=
  records_store ((NodesUsed.refl m).more 1) (.cons (entryOf_used (.refl m) v).2.2 .nil) v
    (m.entryOf v).bit (m.entryOf v).chars label (m.snapshot v)

/-- Tainting or clearing a character is recorded over the history of the string, if the string has
the character. -/
theorem records_setPropertyTaint (v : Value) (key : String) (tainted : Bool) (m : Memory) :
    (∃ e m', CheckedM.setPropertyTaint v key tainted m = (.error (.chars e), m') ∧
      NodesUsed m m') ∨
    ∃ map m', (((m.entryOf v).chars.or (m.charMap? v false)).getD (.uniform 0 false)).set? key
        tainted = some map ∧ CheckedM.setPropertyTaint v key tainted m = (.ok (), m') ∧
      m.Records m' v map.any (taintLabel tainted) [v] := by
  obtain ⟨-, chars, history⟩ := entryOf_used (.refl m) v
  unfold CheckedM.setPropertyTaint
  rw [get_bind_apply]
  split
  · exact .inl ⟨_, m, rfl, .refl m⟩
  · dsimp only
    rw [lift_bind_apply, show entry v m = (m.entryOf v, (useNodes 1 m).2) from rfl]
    dsimp only
    rcases ((m.entryOf v).chars.or (m.charMap? v false)).getD (.uniform 0 false) |>.set? key tainted
      with _ | map'
    · exact .inl ⟨_, _, rfl, (NodesUsed.refl m).more 1⟩
    · have recorded := records_record ((NodesUsed.refl m).more 1) (.cons history .nil) v map'.all
        (some map') (taintLabel tainted)
      rw [Option.any_some, CharMap.all_or_any] at recorded
      exact .inr ⟨map', _, rfl, rfl, recorded⟩

end MemoryM

end ShadowTaint
