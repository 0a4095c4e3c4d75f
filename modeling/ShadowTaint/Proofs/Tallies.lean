import ShadowTaint.Proofs.Deeds
import ShadowTaint.Proofs.Texts
/-!
# Bit and characters of an entry

Nearly every rule stores an entry of which the bit and the characters tell the same: the value has one
taint as a whole, or each of its characters has its own, and the bit is set if all of them are tainted.
This file singles out the steps that do otherwise, and says what these store.

## Main definitions

- `Memory.Tally`: the bit and the characters of an entry tell the same about a value.
- `Memory.Tallies`: all entries that were stored are such entries.
- `Memory.Writes`: one entry was stored, with a given bit and given characters.
- `Deed.Departs`: the steps that store other entries.

## Main statements

- `Deed.run_cases`: a step stores entries that tally, or it is one of those.
-/

namespace ShadowTaint

open Memory Policy

namespace Memory

variable {m m' : Memory} {v : Value} {key : TaintKey} {e : TaintEntry}

/-- The bit and the characters of an entry under the key tell the same about a value with that key: it
has one taint as a whole, or every character has its own and the bit says whether all are tainted. -/
inductive Tally (m : Memory) (key : TaintKey) (e : TaintEntry) : Prop where
  | whole {v : Value} (tracked : m.shadow.keyOf v = some key) (chars : e.chars = m.charMap? v e.bit)
  | spelled {v : Value} {bits : List Bool} (tracked : m.shadow.keyOf v = some key)
      (fits : (m.stringOf? v).map String.length = some bits.length)
      (bit : e.bit = (CharMap.ofBits bits).all) (chars : e.chars = some (.ofBits bits))

/-- Every entry was there before, or its bit and its characters tell the same. -/
structure Tallies (m m' : Memory) : Prop where
  wraps : m'.shadow.wraps = m.shadow.wraps
  entries : ∀ key e, m'.shadow.entries.get? key = some e →
    m.shadow.entries.get? key = some e ∨ m.Tally key e

/-- One entry was stored for the value, with this bit and these characters. -/
structure Writes (m m' : Memory) (v : Value) (bit : Bool) (chars : Option CharMap) : Prop where
  wraps : m'.shadow.wraps = m.shadow.wraps
  stored : ∃ path, ∀ key, m'.shadow.entries.get? key =
    if m.shadow.keyOf v = some key then some ⟨bit, chars, path⟩ else m.shadow.entries.get? key

theorem stringOf?_of_wraps (h : m'.shadow.wraps = m.shadow.wraps) (v : Value) :
    m'.stringOf? v = m.stringOf? v := by
  rw [stringOf?, stringOf?, valueOf_of_wraps h]

theorem charMap?_of_wraps (h : m'.shadow.wraps = m.shadow.wraps) (v : Value) (tainted : Bool) :
    m'.charMap? v tainted = m.charMap? v tainted := by
  rw [charMap?, charMap?, stringOf?_of_wraps h]

theorem Tally.of_wraps (h : m.Tally key e) (wraps : m'.shadow.wraps = m.shadow.wraps) :
    m'.Tally key e := by
  cases h with
  | @whole v tracked chars =>
    exact .whole (v := v) (by rw [keyOf_of_wraps wraps, tracked])
      (by rw [charMap?_of_wraps wraps, chars])
  | @spelled v bits tracked fits bit chars =>
    exact .spelled (v := v) (by rw [keyOf_of_wraps wraps, tracked])
      (by rw [stringOf?_of_wraps wraps, fits]) bit chars

instance : IsPreorder Memory Tallies where
  refl _ := ⟨rfl, fun _ _ => .inl⟩
  trans _ _ _ first second := by
    refine ⟨second.wraps.trans first.wraps, fun key e found => ?_⟩
    rcases second.entries key e found with old | new
    · exact first.entries key e old
    · exact .inr (new.of_wraps first.wraps.symm)

theorem tallies_of_used (used : NodesUsed m m') : m.Tallies m' := by
  obtain ⟨count, rfl⟩ := used
  exact ⟨rfl, fun _ _ => .inl⟩

theorem Writes.tallies {bit : Bool} {chars : Option CharMap} (h : m.Writes m' v bit chars)
    (tally : ∀ key path, m.shadow.keyOf v = some key → m.Tally key ⟨bit, chars, path⟩) :
    m.Tallies m' := by
  obtain ⟨path, entries⟩ := h.stored
  refine ⟨h.wraps, fun key e found => ?_⟩
  rw [entries] at found
  split at found
  · rename_i tracked
    cases found
    exact .inr (tally key path tracked)
  · exact .inl found

end Memory

namespace MemoryM

section Storing

variable {m₀ m : Memory}

theorem writes_store (used : NodesUsed m₀ m) (v : Value) (e : TaintEntry) :
    m₀.Writes (store v e m).2 v e.bit e.chars where
  wraps := (marks_store v e m).wraps.trans used.marks.wraps
  stored := by
    obtain ⟨count, rfl⟩ := used
    exact ⟨e.path, fun key => ShadowState.get?_store _ v e key⟩

theorem writes_record (used : NodesUsed m₀ m) (v : Value) (bit : Bool) (chars : Option CharMap)
    (label : String) (parents : List Provenance.Node) :
    m₀.Writes (record v bit chars label parents m).2 v bit chars :=
  writes_store (used.more _) v _

theorem writes_relabel (v : Value) (label : String) (m : Memory) :
    m.Writes (relabel v label m).2 v (m.taintBit v) (m.entryOf v).chars := by
  rw [← bit_entryOf m v]
  exact writes_store (((NodesUsed.refl m).more 1).more 2) v _

theorem tallies_useNodes (count : Nat) : Within Tallies (useNodes count) :=
  fun m => tallies_of_used ((NodesUsed.refl m).more count)

theorem tallies_entry (v : Value) : Within Tallies (entry v) :=
  .bind .get fun _ => .bind (tallies_useNodes 1) fun _ => .pure _

theorem tallies_history (v : Value) : Within Tallies (history v) :=
  .bind (tallies_entry v) fun _ => .pure _

theorem tallies_recordWhole (v : Value) (tainted : Bool) (label : String)
    (parents : List Provenance.Node) : Within Tallies (recordWhole v tainted label parents) :=
  fun m => (writes_record (.refl m) v tainted (m.charMap? v tainted) label parents).tallies
    fun _ _ tracked => .whole tracked rfl

theorem tallies_setTaint (v : Value) (tainted : Bool) : Within Tallies (setTaint v tainted) :=
  .bind (tallies_history v) fun _ => tallies_recordWhole v _ _ _

/-- Tainting or clearing one key replaces the map of a string, or an untainted one where it has none. The
bit then says whether everything in the map is tainted. -/
theorem setPropertyTaint_cases (v : Value) (key : String) (tainted : Bool) (m : Memory) :
    (∃ e m', CheckedM.setPropertyTaint v key tainted m = (.error (.chars e), m') ∧
      NodesUsed m m') ∨
    ∃ text map m', m.stringOf? v = some text ∧
      ((m.entryOf v).chars.getD (.uniform text.length false)).set? key tainted = some map ∧
      CheckedM.setPropertyTaint v key tainted m = (.ok (), m') ∧
      m.Writes m' v map.all (some map) := by
  unfold CheckedM.setPropertyTaint
  rw [get_bind_apply]
  rcases text : m.stringOf? v with _ | text'
  · exact .inl ⟨_, m, rfl, .refl m⟩
  · dsimp only [Option.isNone_some]
    rw [if_neg Bool.false_ne_true, lift_bind_apply,
      show entry v m = (m.entryOf v, (useNodes 1 m).2) from rfl]
    dsimp only
    have current : ((m.entryOf v).chars.or (m.charMap? v false)).getD (.uniform 0 false) =
        (m.entryOf v).chars.getD (.uniform text'.length false) := by
      rw [charMap?, text]
      cases (m.entryOf v).chars <;> rfl
    rw [current]
    rcases set : ((m.entryOf v).chars.getD (.uniform text'.length false)).set? key tainted with _ | map
    · exact .inl ⟨_, _, rfl, (NodesUsed.refl m).more 1⟩
    · exact .inr ⟨text', map, _, rfl, set, rfl, writes_record ((NodesUsed.refl m).more 1) _ _ _ _ _⟩

end Storing

end MemoryM

namespace ObjectRule

open MemoryM

/-- What is recorded for a property that was read: one with an entry keeps its characters. -/
theorem writes_getField {m₀ m : Memory} (used : NodesUsed m₀ m) (grain : Grain) (ops : Operands) :
    (∃ known, m₀.stored? ops.value = some known ∧ m₀.Writes (getField grain ops m).2 ops.value
      (grain.isTainted m₀ ops.base || grain.isTainted m₀ ops.value) known.chars) ∨
    (m₀.stored? ops.value = none ∧ m₀.Writes (getField grain ops m).2 ops.value
      (grain.isTainted m₀ ops.base) (m₀.charMap? ops.value (m₀.taintBit ops.base))) := by
  have read : entry ops.base m = (m.entryOf ops.base, (useNodes 1 m).2) := rfl
  have bit := (bit_entryOf m ops.base).trans (show m.taintBit ops.base = m₀.taintBit ops.base by
    obtain ⟨count, rfl⟩ := used; rfl)
  have stored : m.stored? ops.value = m₀.stored? ops.value := by obtain ⟨count, rfl⟩ := used; rfl
  have counts (v : Value) : grain.isTainted m v = grain.isTainted m₀ v := by
    obtain ⟨count, rfl⟩ := used
    cases grain <;> rfl
  unfold getField
  rw [bind_apply, get_apply]
  dsimp only
  rw [bind_apply, read]
  dsimp only
  rw [stored, counts, bit, charMap?_of_wraps used.marks.wraps]
  rcases m₀.stored? ops.value with _ | known
  · exact .inr ⟨rfl, writes_record (used.more 1) _ _ _ _ _⟩
  · rw [counts]
    exact .inl ⟨known, rfl, writes_record (used.more 1) _ _ _ _ _⟩

theorem writes_unary (grain : Grain) (operand result : Value) (m : Memory) :
    m.Writes (unary grain operand result m).2 result (grain.isTainted m operand)
      (m.charMap? result (m.taintBit operand)) := by
  rw [← bit_entryOf m operand]
  exact writes_store (((NodesUsed.refl m).more 1).more 2) result _

theorem tallies_binary (grain : Grain) (op : String) (ops : Operands) :
    Within Tallies (binary grain op ops) :=
  .bind .get fun _ => .bind (tallies_history _) fun _ => .bind (tallies_history _)
    fun _ => tallies_recordWhole _ _ _ _

theorem tallies_call (receiver : Option Grain) (c : NativeCall) :
    Within Tallies (call receiver c) := by
  refine .bind .get fun m => ?_
  dsimp only
  split
  · exact .bind (tallies_history _) fun _ => tallies_recordWhole _ _ _ _
  · refine .bind (.mapM tallies_entry _) fun entries => ?_
    split
    · exact tallies_recordWhole _ _ _ _
    · exact .pure _

theorem tallies_putField (grain : Grain) (ops : Operands) : Within Tallies (putField grain ops) := by
  intro m
  unfold putField
  rcases checkPollution_cases ops m with passed | ⟨f, m', refused, used⟩
  · rw [bind_apply_ok passed]
    cases grain with
    | precise => exact refl_of Tallies m
    | imprecise =>
      exact (writes_store ((((NodesUsed.refl m).more 1).more 1).more 2) ops.base
        ⟨_, m.charMap? ops.base (m.isTainted ops.base || m.isTainted ops.value), _⟩).tallies
        fun _ _ tracked => .whole tracked rfl
  · rw [bind_apply_error refused]
    exact tallies_of_used used

end ObjectRule

namespace TextRule

open MemoryM

theorem tallies_storeBits (result : Value) (bits : List Bool) (label : String)
    (parents : List Provenance.Node) : Within Tallies (storeBits result bits label parents) := by
  intro m
  unfold storeBits
  rw [bind_apply, get_apply]
  dsimp only
  split
  · exact refl_of Tallies m
  · rename_i fits
    exact (writes_record (.refl m) result (CharMap.ofBits bits).all (some (.ofBits bits)) label
      parents).tallies fun _ _ tracked => .spelled tracked (by simpa using fits) rfl rfl

theorem tallies_blink (c : NativeCall) : Within Tallies (blink c) := by
  unfold blink
  split
  · exact .pure _
  · exact .bind .get fun _ => .bind (tallies_history _) fun _ => tallies_storeBits _ _ _ _

theorem tallies_substring (c : NativeCall) : Within Tallies (substring c) := by
  unfold substring
  split
  · exact .pure _
  · exact .bind .get fun _ => .bind (tallies_history _) fun _ => tallies_storeBits _ _ _ _

theorem tallies_concat (c : NativeCall) : Within Tallies (concat c) := by
  unfold concat
  split
  · exact .pure _
  · exact .bind .get fun _ => .bind (.mapM tallies_history _) fun _ => tallies_storeBits _ _ _ _

theorem tallies_sameShape (c : NativeCall) : Within Tallies (sameShape c) := by
  unfold sameShape
  split
  · exact .pure _
  · exact .bind .get fun _ => .bind (tallies_history _) fun _ => tallies_storeBits _ _ _ _

theorem tallies_runEncoded (c : NativeCall) : Within Tallies (runEncoded c) := by
  intro m
  obtain ⟨heap, run, -⟩ := runEncoded_used (.refl m) c
  rw [run]
  exact ⟨rfl, fun _ _ => .inl⟩

theorem tallies_rerun (c : NativeCall) : Within Tallies (rerun c) := by
  refine .bind .get fun m => .bind (.mapM tallies_history _) fun parents =>
    .bind (tallies_runEncoded c) fun output => ?_
  cases output with
  | none => exact .pure _
  | some output =>
    dsimp only
    split
    · exact .pure _
    · exact tallies_storeBits _ _ _ _

theorem tallies_concatenate (ops : Operands) : Within Tallies (concatenate ops) := by
  refine .bind .get fun m => ?_
  split
  · dsimp only
    split
    · exact .pure _
    · exact .bind (.mapM tallies_history _) fun _ => tallies_storeBits _ _ _ _
  · exact .pure _

theorem tallies_binary (levels : Levels) (op : String) (ops : Operands) :
    Within Tallies (binary levels op ops) := by
  refine .bind .get fun m => ?_
  dsimp only
  split
  · refine .bind (tallies_concatenate ops) fun done => ?_
    split
    · exact .pure _
    · exact ObjectRule.tallies_binary _ _ _
  · exact ObjectRule.tallies_binary _ _ _

theorem writes_setBit (v : Value) (m : Memory) :
    m.Writes (setBit v m).2 v true (m.entryOf v).chars :=
  writes_store ((NodesUsed.refl m).more 1) v _

/-- The functions that return the code of a character. -/
def codeNames : List String := ["charCodeAt", "codePointAt"]

/-- The taint of the character whose code a function returns. -/
def codeBit (m : Memory) (c : NativeCall) : Bool :=
  (m.charBits c.base).getD (position m c.args[0]? 0 (m.charBits c.base).length) false

theorem characterCode_cases (c : NativeCall) (m : Memory) :
    (c.args.length = 1 ∧ (characterCode c m).1 = true ∧
      m.Writes (characterCode c m).2 c.result (codeBit m c) none) ∨
    (c.args.length ≠ 1 ∧ characterCode c m = (false, m)) := by
  unfold characterCode
  by_cases single : c.args.length = 1
  · rw [if_neg (by simp [single])]
    exact .inl ⟨single, rfl, writes_record ((NodesUsed.refl m).more 1) _ _ none _ _⟩
  · rw [if_pos (by simp [single])]
    exact .inr ⟨single, rfl⟩

theorem tallies_unmodelled (levels : Levels) (c : NativeCall) :
    Within Tallies (unmodelled levels c) := by
  refine .bind (tallies_rerun c) fun done => ?_
  split
  · exact .pure _
  · exact ObjectRule.tallies_call _ _

theorem call_split {levels : Levels} {c : NativeCall} {m : Memory}
    (named : m.functionName c.f = "split") (done : (split levels c m).1 = true) :
    (call levels c m).2 = (split levels c m).2 := by
  rw [call_apply, named]
  exact if_pos done

/-- The rule of strings for native functions stores entries that tally, unless it stores the code of a
character or gives words their shadows. -/
theorem call_cases (levels : Levels) (c : NativeCall) (m : Memory) :
    m.Tallies (call levels c m).2 ∨
    (m.functionName c.f ∈ codeNames ∧ c.args.length = 1 ∧
      m.Writes (call levels c m).2 c.result (codeBit m c) none) ∨
    (m.functionName c.f = "split" ∧ (split levels c m).1 = true ∧
      (call levels c m).2 = (split levels c m).2) := by
  rw [call_apply]
  rcases found : model? levels (m.functionName c.f) with _ | model
  · exact .inl (tallies_unmodelled levels c m)
  dsimp only
  have applied (tallies : Within Tallies (model c)) : m.Tallies
      (if (model c m).1 then (model c m).2 else (unmodelled levels c (model c m).2).2) := by
    split
    · exact tallies m
    · exact trans_of Tallies (tallies m) (tallies_unmodelled levels c _)
  have code (named : m.functionName c.f ∈ codeNames) (same : model = characterCode) :
      m.Tallies (if (model c m).1 then (model c m).2 else (unmodelled levels c (model c m).2).2) ∨
      (m.functionName c.f ∈ codeNames ∧ c.args.length = 1 ∧ m.Writes
        (if (model c m).1 then (model c m).2 else (unmodelled levels c (model c m).2).2)
        c.result (codeBit m c) none) := by
    subst same
    rcases characterCode_cases c m with ⟨single, done, writes⟩ | ⟨-, undone⟩
    · rw [if_pos done]
      exact .inr ⟨named, single, writes⟩
    · rw [undone]
      exact .inl (tallies_unmodelled levels c m)
  generalize named : m.functionName c.f = name at found code ⊢
  unfold model? at found
  split at found <;> cases found
  · exact .inl (applied (tallies_blink c))
  · exact .inl (applied (tallies_substring c))
  · exact .inl (applied (tallies_concat c))
  · exact .inl (applied (tallies_sameShape c))
  · exact .inl (applied (tallies_sameShape c))
  · exact (code (by decide) rfl).imp_right .inl
  · exact (code (by decide) rfl).imp_right .inl
  · rcases done : (split levels c m).1
    · rw [split_of_false done]
      exact .inl (tallies_unmodelled levels c m)
    · exact .inr (.inr ⟨rfl, rfl, rfl⟩)

end TextRule

namespace ContainerRule

open MemoryM

theorem writes_taintWhole (label : String) (v : Value) (m : Memory) :
    m.Writes (taintWhole label v m).2 v true (m.entryOf v).chars :=
  writes_record ((NodesUsed.refl m).more 1) v true _ label _

theorem tallies_taintRead (label : String) (c : NativeCall) : Within Tallies (taintRead label c) :=
  .bind .get fun _ => .bind (tallies_entry _) fun _ => tallies_recordWhole _ _ _ _

end ContainerRule

namespace ArrayRule

open MemoryM

theorem tallies_join (c : NativeCall) : Within Tallies (join c) := by
  unfold join
  split
  · exact .pure _
  · exact .bind .get fun _ => .bind (.mapM tallies_history _) fun _ =>
      TextRule.tallies_storeBits _ _ _ _

theorem tallies_mapped (c : NativeCall) : Within Tallies (mapped c) := by
  refine .bind .get fun m => ?_
  dsimp only
  split
  · exact .pure _
  · refine .bind (.forM (fun pair => ?_) _) fun _ => .pure _
    refine .bind .get fun m => .bind (tallies_history _) fun path => ?_
    split
    · exact .bind (tallies_history _) fun _ => tallies_recordWhole _ _ _ _
    · exact .pure _

theorem tallies_reduced (c : NativeCall) : Within Tallies (reduced c) := by
  refine .bind .get fun m => ?_
  split
  · exact .pure _
  · exact .bind (.mapM tallies_history _) fun _ => .bind (tallies_recordWhole _ _ _ _) fun _ =>
      .pure _

end ArrayRule

namespace ContainerRule

/-- The rule of containers stores entries that tally, unless it taints the container as a whole. -/
theorem call_cases (levels : Levels) (kind : Container) (grain : Grain) (c : NativeCall)
    (m : Memory) : m.Tallies (call levels kind grain c m).2 ∨
      m.Writes (call levels kind grain c m).2 c.base true (m.entryOf c.base).chars := by
  have other : Within Tallies (ObjectRule.call (some levels.objectGrain) c) :=
    ObjectRule.tallies_call _ _
  have received (label : String) : m.Tallies (taintReceiver label c m).2 ∨
      m.Writes (taintReceiver label c m).2 c.base true (m.entryOf c.base).chars := by
    unfold taintReceiver
    rw [bind_apply, get_apply]
    dsimp only
    split
    · exact .inr (writes_taintWhole label c.base m)
    · exact .inl (refl_of Tallies m)
  unfold call
  rw [bind_apply, get_apply]
  dsimp only
  generalize m.functionName c.f = name
  rcases found : model? kind grain name with _ | model
  · dsimp only
    split
    · rcases array : ArrayRule.model? grain name with _ | model
      · exact .inl (other m)
      · dsimp only
        have applied (tallies : Within Tallies (model c)) : m.Tallies ((do
            if ← model c then return
            ObjectRule.call (some levels.objectGrain) c : MemoryM Unit) m).2 := by
          refine Within.bind tallies (fun done => ?_) m
          split
          · exact .pure _
          · exact other
        unfold ArrayRule.model? at array
        split at array <;> cases array
        · rw [bind_apply, if_pos (ArrayRule.records_push c m).1]
          unfold ArrayRule.push
          rw [bind_apply, get_apply]
          dsimp only
          split
          · exact .inr (writes_taintWhole _ c.base m)
          · exact .inl (refl_of Tallies m)
        · exact .inl (applied (ArrayRule.tallies_join c))
        · exact .inl (applied (ArrayRule.tallies_mapped c))
        · exact .inl (applied (ArrayRule.tallies_reduced c))
        · exact .inl (applied (ArrayRule.tallies_reduced c))
    · exact .inl (other m)
  · dsimp only
    unfold model? at found
    split at found <;> cases found
    · exact received _
    · exact .inl (tallies_taintRead _ c m)
    · exact received _
    · exact .inl (tallies_taintRead _ c m)
    all_goals exact .inl (refl_of Tallies m)

end ContainerRule

/-- The step stores an entry of which the bit and the characters need not tell the same. -/
inductive Deed.Departs (levels : Levels) (m m' : Memory) : Deed → Prop where
  /-- A property that was read has an entry: the bit is joined with that of the object, the characters
  stay. -/
  | known {policy : Policy} {ops : Operands} {e : TaintEntry}
      (objects : policy = .string → (m.entryOf ops.base).chars = none)
      (stored : m.stored? ops.value = some e)
      (writes : m.Writes m' ops.value ((policy.objectGrain levels).isTainted m ops.base ||
        (policy.objectGrain levels).isTainted m ops.value) e.chars) : Departs levels m m' (.read policy ops)
  /-- A property that was read has none: the bit tells whether the object counts as tainted, the
  characters have its own bit. -/
  | unknown {policy : Policy} {ops : Operands}
      (objects : policy = .string → (m.entryOf ops.base).chars = none)
      (fresh : m.stored? ops.value = none)
      (writes : m.Writes m' ops.value ((policy.objectGrain levels).isTainted m ops.base)
        (m.charMap? ops.value (m.taintBit ops.base))) : Departs levels m m' (.read policy ops)
  /-- The bit of a unary result tells whether the operand counts as tainted, the characters have its own
  bit. -/
  | unary {policy : Policy} {operand result : Value}
      (writes : m.Writes m' result ((policy.objectGrain levels).isTainted m operand)
        (m.charMap? result (m.taintBit operand))) : Departs levels m m' (.unary policy operand result)
  /-- The code of a character has a bit and no characters. -/
  | code {c : NativeCall} (named : m.functionName c.f ∈ TextRule.codeNames)
      (single : c.args.length = 1) (writes : m.Writes m' c.result (TextRule.codeBit m c) none) :
      Departs levels m m' (.native .string c)
  /-- A container is tainted as a whole, and characters are left as they are. -/
  | container {kind : Container} {grain : Grain} {c : NativeCall}
      (writes : m.Writes m' c.base true (m.entryOf c.base).chars) :
      Departs levels m m' (.native (.container kind grain) c)
  /-- Words are cut out of a text. -/
  | words {c : NativeCall} (named : m.functionName c.f = "split")
      (applies : (TextRule.split levels c m).1 = true) (run : m' = (TextRule.split levels c m).2) :
      Departs levels m m' (.native .string c)
  /-- The evaluation of code is noted in its history. -/
  | noted {code : Value} {sink : Bool} {maxLength : Nat}
      (writes : m.Writes m' code (m.taintBit code) (m.entryOf code).chars) :
      Departs levels m m' (.evaluate code sink maxLength)

namespace Deed

variable (levels : Levels) (m : Memory)

/-- A property that is read of anything but a string with characters has the rule of objects. -/
theorem run_read {policy : Policy} {ops : Operands}
    (objects : policy = .string → (m.entryOf ops.base).chars = none) : ∃ m₁, NodesUsed m m₁ ∧
      ((read policy ops).run levels m).2 =
        (ObjectRule.getField (policy.objectGrain levels) ops m₁).2 := by
  by_cases text : policy = .string
  · subst text
    refine ⟨_, (NodesUsed.refl m).more 1, ?_⟩
    show (TextRule.getField levels ops m).2 = _
    rw [TextRule.getField_apply, objects rfl]
    rfl
  · refine ⟨m, .refl m, ?_⟩
    show (policy.getField levels ops m).2 = _
    cases policy <;> first | rfl | exact absurd rfl text

theorem departs_read {policy : Policy} {ops : Operands}
    (objects : policy = .string → (m.entryOf ops.base).chars = none) :
    (read policy ops).Departs levels m ((read policy ops).run levels m).2 := by
  obtain ⟨m₁, used, run⟩ := run_read levels m objects
  rw [run]
  rcases ObjectRule.writes_getField used (policy.objectGrain levels) ops with
    ⟨known, stored, writes⟩ | ⟨fresh, writes⟩
  · exact .known objects stored writes
  · exact .unknown objects fresh writes

theorem read_cases (policy : Policy) (ops : Operands) :
    m.Tallies ((read policy ops).run levels m).2 ∨
      (read policy ops).Departs levels m ((read policy ops).run levels m).2 := by
  by_cases objects : policy = .string → (m.entryOf ops.base).chars = none
  · exact .inr (departs_read levels m objects)
  · -- the text of a string with characters: the character that is read has its own taint
    obtain ⟨rfl, spelled⟩ := Classical.not_imp.mp objects
    obtain ⟨map, chars⟩ := Option.ne_none_iff_exists'.mp spelled
    refine .inl ?_
    show m.Tallies (TextRule.getField levels ops m).2
    rw [TextRule.getField_apply, chars]
    exact trans_of Tallies (tallies_of_used ((NodesUsed.refl m).more 1))
      (MemoryM.tallies_recordWhole _ _ _ _ _)

theorem native_cases (policy : Policy) (c : NativeCall) :
    m.Tallies ((native policy c).run levels m).2 ∨
      (native policy c).Departs levels m ((native policy c).run levels m).2 := by
  cases policy with
  | string =>
    rcases TextRule.call_cases levels c m with tallies | ⟨named, single, writes⟩ | ⟨named, done, run⟩
    · exact .inl tallies
    · exact .inr (.code named single writes)
    · exact .inr (.words named done run)
  | container kind grain =>
    exact (ContainerRule.call_cases levels kind grain c m).imp_right .container
  | global => exact .inl (ObjectRule.tallies_call none c m)
  | object grain => exact .inl (ObjectRule.tallies_call (some grain) c m)
  | lodash => exact .inl (ObjectRule.tallies_call (some _) c m)

/-- All entries that a step stores tally, or the step is one of those that need not. -/
theorem run_cases (d : Deed) :
    m.Tallies (d.run levels m).2 ∨ d.Departs levels m (d.run levels m).2 := by
  cases d with
  | write v =>
    exact .inl ((MemoryM.writes_store ((NodesUsed.refl m).more 1) v
      ⟨true, m.charMap? v true, _⟩).tallies fun _ _ tracked => .whole tracked rfl)
  | read policy ops => exact read_cases levels m policy ops
  | store policy ops =>
    cases policy with
    | global =>
      refine .inl ?_
      show m.Tallies (GlobalRule.putField ops m).2
      unfold GlobalRule.putField
      rw [get_bind_apply]
      split
      · exact tallies_of_used ((NodesUsed.refl m).more 1)
      · exact refl_of Tallies m
    | _ => exact .inl (ObjectRule.tallies_putField _ ops m)
  | binary policy op ops =>
    cases policy with
    | string => exact .inl (TextRule.tallies_binary levels op ops m)
    | _ => exact .inl (ObjectRule.tallies_binary _ op ops m)
  | unary policy operand result => exact .inr (.unary (ObjectRule.writes_unary _ operand result m))
  | native policy c => exact native_cases levels m policy c
  | evaluate code sink maxLength =>
    refine .inr (.noted ?_)
    have noted := MemoryM.writes_relabel code Tracker.evalLabel m
    show m.Writes (Tracker.checkCode code sink maxLength m).2 _ _ _
    unfold Tracker.checkCode
    rw [lift_bind_apply, get_bind_apply]
    split
    · exact ⟨noted.wraps, noted.stored⟩
    · exact noted

end Deed

end ShadowTaint
