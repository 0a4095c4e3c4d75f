import ShadowTaint.Proofs.ArrayTaint
import ShadowTaint.Proofs.Attribution
import ShadowTaint.Proofs.NewArrays
/-!
# Words without characters

The rule for words takes a word to be tainted as a whole if all of its characters are, and an array if all
characters of its words are. For a word without characters, and for an array of such words, that is always so.
A text that is split between two separators that meet, or at its end, has such words, however untainted it is.

## Main definitions

- `Memory.Piece`: a value stands for a word, and it is tainted if the word is empty.
- `Memory.Returns`: an argument of a native function and what comes back for it.
- `Tracker.SplitRun`: what a complete call of `split` does before the rule applies.

## Main statements

- `TextRule.pieces_wrapWords`: which words of an untainted text are tainted.
- `TextRule.pieces_of_call`: what the rule of strings makes of such a text, whichever model applies.
- `Tracker.split_taints_iff`: when the array is tainted, and which of its elements are.
- `Session.separator_taints`: an untainted text that is split into two empty words, all of it tainted.
-/

namespace ShadowTaint

open Memory Tracker

namespace Memory

variable {m m' : Memory} {p : Prop} {n : Nat} {v e : Value} {word : List Char} {words : List (List Char)}
  {array : ObjectId} {es : List Value}

/-- The value stands for the word. It is tainted, and as a whole, exactly if the word is empty and `p`. -/
structure Piece (p : Prop) (m : Memory) (e : Value) (word : List Char) : Prop where
  value : m.valueOf e = .string (String.ofList word)
  bit : m.taintBit e = true ↔ p ∧ word = []
  tainted : m.isTainted e = true ↔ p ∧ word = []

theorem isTainted_of_plain (plain : v.object? = none) : m.isTainted v = m.ownTaint v :=
  Bool.eq_iff_iff.mpr ⟨ownTaint_of_plain plain, isTainted_of_ownTaint⟩

/-- Nothing is recorded for a value that is late, if nothing is for identities that were handed out late. -/
theorem Late.unrecorded (h : m.Late n v)
    (fresh : ∀ id : Identity, n ≤ id.index → m.shadow.entries.get? (.identity id) = none) :
    m.stored? v = none := by
  rcases h with bare | ⟨id, raw, known, new⟩
  · cases v with
    | literal l => rfl
    | object o => cases bare
    | shadow handle identity raw => cases bare
  · rw [stored?_of_lookup known, fresh id new]

/-- What is recorded for a literal is found under an identity. -/
theorem stored?_of_identities (plain : v.object? = none) (handles : m.SameHandles m')
    (identities : ∀ id, m'.shadow.entries.get? (.identity id) = m.shadow.entries.get? (.identity id)) :
    m'.stored? v = m.stored? v := by
  rw [stored?, stored?, ShadowState.stored?, ShadowState.stored?, keyOf_of_wraps handles]
  rcases tracked : m.shadow.keyOf v with _ | (id | o)
  · rfl
  · exact identities id
  · rw [ShadowState.keyOf, plain] at tracked
    split at tracked <;> cases tracked

namespace Piece

theorem plain (h : m.Piece p e word) : e.object? = none := by
  rw [← m.objectOf?_eq e, objectOf?, h.value]
  rfl

theorem congr (h : m.Piece p e word) (handles : m.SameHandles m')
    (identities : ∀ id, m'.shadow.entries.get? (.identity id) = m.shadow.entries.get? (.identity id)) :
    m'.Piece p e word := by
  have stored := stored?_of_identities h.plain handles identities
  refine ⟨by rw [valueOf_of_wraps handles, h.value], ?_, ?_⟩
  · rw [taintBit, stored]
    exact h.bit
  · rw [isTainted_of_plain h.plain, ownTaint_eq_any, stored, ← ownTaint_eq_any, ← isTainted_of_plain h.plain]
    exact h.tainted

/-- A word for which nothing is recorded is untainted. -/
theorem of_unrecorded (owned : e.OwnedBy m.shadow) (raw : e.raw = .string (String.ofList word))
    (unrecorded : m.stored? e = none) (never : ¬p) : m.Piece p e word := by
  have plain : e.object? = .none := by
    rw [← Value.object?_raw e, raw]
    rfl
  refine ⟨(valueOf_of_owned owned).trans raw, ?_, ?_⟩
  · rw [taintBit, unrecorded]
    exact iff_of_false Bool.false_ne_true fun both => never both.1
  · rw [isTainted_of_plain plain, ownTaint_of_none unrecorded]
    exact iff_of_false Bool.false_ne_true fun both => never both.1

end Piece

/-- A word without tainted characters is tainted if it has no characters. -/
theorem WordAt.piece {id : Identity} (h : m.WordAt e id word (List.replicate word.length false)) (hp : p) :
    m.Piece p e word := by
  obtain ⟨handle, path, -, known, stored⟩ := h
  have bit : m.taintBit e = (List.replicate word.length false).all fun b => b := by
    rw [taintBit, stored?_of_lookup known, stored]
    rfl
  have own : m.isTainted e = m.taintBit e := by
    rw [isTainted_of_lookup known, bit, stored, Option.any_some, TaintEntry.isTainted]
    simp [CharMap.any, CharMap.ofBits]
  have empty : m.taintBit e = true ↔ p ∧ word = [] := by
    rw [bit]
    simp [List.all_replicate, hp]
  exact ⟨ShadowState.valueOf_of_lookup known, empty, own ▸ empty⟩

theorem exists_taintBit_iff (pieces : List.Forall₂ (m.Piece p) es words) :
    (∃ e ∈ es, m.taintBit e = true) ↔ p ∧ [] ∈ words := by
  induction pieces with
  | nil => simp
  | cons head _ ih => simp only [List.mem_cons, exists_eq_or_imp, ih, head.bit, ← and_or_left, List.nil_eq]

/-- An array of words is tainted by its own entry, or by an empty word. -/
theorem isTainted_array_iff (held : m.heap.elements? (.object array) = some es)
    (pieces : List.Forall₂ (m.Piece p) es words) : m.isTainted (.object array) = true ↔
      m.ownTaint (.object array) = true ∨
        (p ∧ [] ∈ words) ∧ (m.stored? (.object array)).bind (·.chars) = none := by
  rw [isTainted_iff, members_of_array (Heap.held?_array_iff.mpr held), exists_taintBit_iff pieces,
    and_comm (b := p ∧ _)]

end Memory

namespace TextRule

variable {m : Memory} {base : List Bool} {path : Provenance.Node} {separator start : Nat}
  {values : List Value} {words : List (List Char)}

/-- A word that was cut out of an untainted text has no tainted characters. -/
theorem bitsAt_of_clean (clean : true ∉ base) (start : Nat) (word : List Char) :
    bitsAt base start word = List.replicate word.length false := by
  refine List.eq_replicate_iff.mpr ⟨by simp [bitsAt], fun b mem => ?_⟩
  obtain ⟨i, -, rfl⟩ := List.mem_map.mp mem
  rw [List.getD_eq_getElem?_getD]
  rcases bit : base[start + i]? with _ | _ | _
  · rfl
  · rfl
  · exact absurd (List.mem_of_getElem? bit) clean

theorem wrapWords_cons_fst (base : List Bool) (path : Provenance.Node) (separator start : Nat)
    (value : Value) (rest : List Value) (m : Memory) :
    (wrapWords base path separator start (value :: rest) m).1 =
      ((wrapWord base path start value m).1 :: (wrapWords base path separator
          (start + (m.heap.keyText (m.valueOf value)).length + separator) rest
          (wrapWord base path start value m).2).1.1,
        (wordBits m base start value).all id && (wrapWords base path separator
          (start + (m.heap.keyText (m.valueOf value)).length + separator) rest
          (wrapWord base path start value m).2).1.2) := rfl

theorem spreads_wrapWord (base : List Bool) (path : Provenance.Node) (start : Nat) (value : Value)
    (m : Memory) : m.Spreads (wrapWord base path start value m).2 :=
  within_wrapWords admitsRules_spreads base path 0 start [value] m

/-- All words of an untainted text are taken to be tainted if all are empty. -/
theorem all_wrapWords (clean : true ∉ base) (spell : m.Spell values words) :
    (wrapWords base path separator start values m).1.2 = true ↔ ∀ word ∈ words, word = [] := by
  induction values generalizing start m words with
  | nil =>
    cases spell
    exact ⟨fun _ _ mem => absurd mem List.not_mem_nil, fun _ => rfl⟩
  | cons value rest ih =>
    cases spell with
    | @cons _ word _ words head later =>
      have rest' := Spell.mono later (spreads_wrapWord base path start value m).toGrows
      rw [wrapWords_cons_fst, Bool.and_eq_true, ih rest', wordBits_of_spell base head.1 head.2,
        bitsAt_of_clean clean, List.forall_mem_cons]
      simp [List.all_replicate]

/-- Words are literals: what is recorded for them is not recorded for an object. -/
theorem object_wrapWords (spell : m.Spell values words) (o : ObjectId) :
    (wrapWords base path separator start values m).2.shadow.entries.get? (.object o) =
      m.shadow.entries.get? (.object o) := by
  induction values generalizing start m words with
  | nil => rfl
  | cons value rest ih =>
    cases spell with
    | @cons _ word _ words head later =>
      have rest' := Spell.mono later (spreads_wrapWord base path start value m).toGrows
      have stands : m.valueOf value = .string (String.ofList word) := (valueOf_of_owned head.1).trans head.2
      obtain ⟨path', entries⟩ := (writes_wrapWord base path start value m).stored
      rw [wrapWords_cons, ih rest', entries, (MemoryM.quiet_wrapFresh _ _).entries, if_neg]
      intro tracked
      rcases keyOf_wrapFresh (m.shadow.raw_valueOf value) rfl with untracked | fresh | ⟨object, value', -⟩
      · cases untracked.symm.trans tracked
      · cases fresh.symm.trans tracked
      · cases stands.symm.trans value'

/-- Where literals do not get shadows, the words stay literals. -/
theorem literals_wrapWords (skips : m.shadow.frame.callType.skipsWrapping = true)
    (spell : m.Spell values words) : (wrapWords base path separator start values m).1.1 =
      words.map fun word => .string (String.ofList word) := by
  induction values generalizing start m words with
  | nil =>
    cases spell
    rfl
  | cons value rest ih =>
    cases spell with
    | @cons _ word _ words head later =>
      have rest' := Spell.mono later (spreads_wrapWord base path start value m).toGrows
      have stands : m.valueOf value = .string (String.ofList word) := (valueOf_of_owned head.1).trans head.2
      have literal : (wrapWord base path start value m).1 = .string (String.ofList word) := by
        show (MemoryM.wrapFresh (m.valueOf value) m).1 = _
        rw [stands]
        exact congrArg Prod.fst
          (MemoryM.shadow_of_skips (m := { m with shadow := m.shadow.mint.2 }) skips _ _)
      rw [wrapWords_cons_fst, literal, List.map_cons]
      exact congrArg _ (ih (by rw [(adds_wrapWord base path start value m).frame, skips]) rest')

/-- Of the words of an untainted text the empty ones are tainted, where literals get shadows. -/
theorem pieces_wrapWords (clean : true ∉ base) (spell : m.Spell values words) :
    List.Forall₂ ((wrapWords base path separator start values m).2.Piece
        (m.shadow.frame.callType.skipsWrapping = false))
      (wrapWords base path separator start values m).1.1 words := by
  cases skips : m.shadow.frame.callType.skipsWrapping with
  | true =>
    rw [literals_wrapWords skips spell, List.forall₂_map_left_iff, List.forall₂_same]
    exact fun word _ => .of_unrecorded trivial rfl rfl nofun
  | false =>
    have length := (length_wrapWords base path separator start values m).trans spell.length_eq
    refine List.forall₂_iff_get.mpr ⟨length, fun i inside inside' => ?_⟩
    obtain ⟨e, found, worded⟩ := wordAt_wrapWords base path separator skips spell
      (List.getElem?_eq_getElem inside')
    rw [bitsAt_of_clean clean] at worded
    rw [List.getElem?_eq_getElem inside] at found
    cases found
    exact worded.piece rfl

end TextRule

/-- A result is tainted as a whole if the bit of an argument is set, where the receiver is untainted. -/
theorem ObjectRule.ownTaint_call_of_clean {c : NativeCall} {m : Memory} {grain : Grain} {o : ObjectId}
    (clean : (grain.isTainted m c.base || m.allProps c.base) = false) (result : c.result = .object o) :
    m.Marks (ObjectRule.call (some grain) c m).2 ∧
      (∀ id, (ObjectRule.call (some grain) c m).2.shadow.entries.get? (.identity id) =
        m.shadow.entries.get? (.identity id)) ∧
      (ObjectRule.call (some grain) c m).2.ownTaint (.object o) =
        (c.args.any m.taintBit || m.ownTaint (.object o)) := by
  have rule := records_call (some grain) c m
  rw [Option.any_some, clean, if_neg Bool.false_ne_true] at rule
  split at rule
  · rename_i bit
    obtain ⟨e, -, -, entries⟩ := rule.get?
    refine ⟨rule.marks, fun id => (entries _).trans (if_neg ?_), ?_⟩
    · rw [result]
      exact nofun
    · rw [rule.ownTaint_object, result, if_pos (by rfl), bit, Bool.true_or]
  · rename_i clear
    have same : (ObjectRule.call (some grain) c m).2.shadow.entries = m.shadow.entries := by
      obtain ⟨count, used⟩ := rule
      rw [used]
    refine ⟨rule.marks, fun id => by rw [same], ?_⟩
    rw [ownTaint_object_of_entries same, Bool.eq_false_iff.mpr clear, Bool.false_or]

namespace TextRule

variable {levels : Levels} {c : NativeCall} {m : Memory} {array : ObjectId} {values : List Value}
  {words : List (List Char)} {n : Nat} {s : String}

/-- The rule for words gives each word a taint of its own. -/
def CountsWords (levels : Levels) (args : List Value) : Prop :=
  args.length ≤ 2 ∧ levels.precision .array = .precise

/-- A second run is of no use for a result that is not a string. -/
theorem rerun_of_no_string (result : m.stringOf? c.result = none) :
    ∃ m₁, Policy.NodesUsed m m₁ ∧ rerun c m = (false, m₁) := by
  obtain ⟨ns, m₁, read, used, -⟩ := MemoryM.histories_at (.refl m) (c.base :: c.args)
  have again : runEncoded c m₁ = (none, m₁) := by
    have result₁ : m₁.stringOf? c.result = none := (stringOf?_of_wraps used.marks.wraps _).trans result
    unfold runEncoded
    rw [bind_apply, get_apply]
    dsimp only
    rw [result₁, Option.isNone_none, Bool.or_true, if_pos rfl]
    rfl
  refine ⟨m₁, used, ?_⟩
  unfold rerun
  rw [bind_apply, get_apply]
  dsimp only
  rw [bind_apply, read]
  dsimp only
  rw [bind_apply, again]
  rfl

/-- Without a model, what is returned for an untainted string is tainted if the bit of an argument is set. -/
theorem unmodelled_of_clean (levels : Levels) (text : m.stringOf? c.base = some s) (clean : m.ownTaint c.base = false)
    (result : c.result = .object array) : m.Marks (unmodelled levels c m).2 ∧
      (∀ id, (unmodelled levels c m).2.shadow.entries.get? (.identity id) =
        m.shadow.entries.get? (.identity id)) ∧
      (unmodelled levels c m).2.ownTaint (.object array) =
        (c.args.any m.taintBit || m.ownTaint (.object array)) := by
  obtain ⟨m₁, used, again⟩ := rerun_of_no_string (c := c) (m := m) (by rw [result]; rfl)
  have run : (unmodelled levels c m).2 = (ObjectRule.call (some levels.objectGrain) c m₁).2 := by
    rw [unmodelled, bind_apply, again]
    rfl
  have clean₁ : m₁.ownTaint c.base = false := by
    rw [ownTaint_eq_any] at clean ⊢
    obtain ⟨count, rfl⟩ := used
    exact clean
  have counts : (levels.objectGrain.isTainted m₁ c.base || m₁.allProps c.base) = false := by
    refine Bool.eq_false_iff.mpr fun counted => ?_
    rw [Traced.ownTaint_of_string ((stringOf?_of_wraps used.marks.wraps _).trans text)
      (Bool.or_eq_true_iff.mp counted)] at clean₁
    cases clean₁
  obtain ⟨marks, identities, own⟩ := ObjectRule.ownTaint_call_of_clean counts result
  have same : m₁.shadow.entries = m.shadow.entries := by
    obtain ⟨count, rfl⟩ := used
    rfl
  have bits : m₁.taintBit = m.taintBit := funext fun v => taintBit_congr same used.marks.wraps v
  rw [run]
  refine ⟨trans_of Marks used.marks marks, fun id => (identities id).trans (by rw [same]), ?_⟩
  rw [own, bits, ownTaint_object_of_entries same]

/-- What the rule for words makes of an untainted text. -/
theorem pieces_of_split (counts : CountsWords levels c.args) (result : c.result = .object array)
    (held : m.heap.elements? (.object array) = some values) (spell : m.Spell values words)
    (clean : true ∉ m.charBits c.base) : ∃ m' es, split levels c m = (true, m') ∧
      m'.heap.elements? (.object array) = some es ∧
      List.Forall₂ (m'.Piece (m.shadow.frame.callType.skipsWrapping = false)) es words ∧
      (m'.isTainted (.object array) = true ↔ m.ownTaint (.object array) = true ∨
        (∀ word ∈ words, word = []) ∨ (m.shadow.frame.callType.skipsWrapping = false ∧ [] ∈ words) ∧
          (m.stored? (.object array)).bind (·.chars) = none) := by
  have used := (Policy.NodesUsed.refl m).more 1
  have spell' : (MemoryM.useNodes 1 m).2.Spell values words := spell.mono used.marks.spreads.toGrows
  obtain ⟨-, elements, run⟩ := split_of_precise counts.1 counts.2 (by rw [result]; rfl) held
  have pieces : List.Forall₂ ((afterWords c values m).Piece (m.shadow.frame.callType.skipsWrapping = false))
      (splitWords c values m).1.1 words :=
    (pieces_wrapWords clean spell').imp fun _ _ piece => piece.congr rfl fun _ => rfl
  have stored : (afterWords c values m).stored? (.object array) = m.stored? (.object array) := by
    rw [stored?_of_key (v := .object array) rfl, stored?_of_key (v := .object array) rfl]
    exact object_wrapWords spell' array
  have all : (splitWords c values m).1.2 = true ↔ ∀ word ∈ words, word = [] := all_wrapWords clean spell'
  by_cases empty : ∀ word ∈ words, word = []
  · have writes := writes_setBit (.object array) (afterWords c values m)
    obtain ⟨path, entries⟩ := writes.stored
    have bit : (setBit (.object array) (afterWords c values m)).2.taintBit (.object array) = true := by
      rw [taintBit, stored?_of_key (v := .object array) rfl, entries, if_pos (by rfl)]
      rfl
    rw [if_pos (all.mpr empty), result] at run
    have apart (id : Identity) : (setBit (.object array) (afterWords c values m)).2.shadow.entries.get?
        (.identity id) = (afterWords c values m).shadow.entries.get? (.identity id) := by
      refine (entries _).trans (if_neg fun same => ?_)
      cases same
    refine ⟨_, _, run, ?_, pieces.imp fun _ _ piece => piece.congr writes.wraps apart,
      iff_of_true ?_ (.inr (.inl empty))⟩
    · rw [(marks_setBit (.object array) (afterWords c values m)).heap]
      exact elements
    · rw [isTainted, bit, Bool.true_or]
  · rw [if_neg (mt all.mp empty)] at run
    refine ⟨_, _, run, elements, pieces, ?_⟩
    rw [isTainted_array_iff elements pieces, ownTaint_eq_any, stored, ← ownTaint_eq_any, or_iff_right empty]

/-- What the rule of strings makes of an untainted text that was split, whichever model applies. -/
theorem pieces_of_call (levels : Levels) (named : m.functionName c.f = "split") (result : c.result = .object array)
    (text : m.stringOf? c.base = some s) (clean : m.ownTaint c.base = false)
    (brings : m.Brings True n words array)
    (fresh : ∀ id : Identity, n ≤ id.index → m.shadow.entries.get? (.identity id) = none) :
    ∃ es, (call levels c m).2.heap.elements? (.object array) = some es ∧
      List.Forall₂ ((call levels c m).2.Piece (CountsWords levels c.args ∧
        m.shadow.frame.callType.skipsWrapping = false)) es words ∧
      ((call levels c m).2.isTainted (.object array) = true ↔ m.ownTaint (.object array) = true ∨
        CountsWords levels c.args ∧ ((∀ word ∈ words, word = []) ∨
          (m.shadow.frame.callType.skipsWrapping = false ∧ [] ∈ words) ∧
            (m.stored? (.object array)).bind (·.chars) = none) ∨
        2 < c.args.length ∧ ∃ a ∈ c.args, m.taintBit a = true) := by
  obtain ⟨values, held, each⟩ := brings.held
  have elements := Heap.held?_array_iff.mp held
  have untainted {p : Prop} (never : ¬p) : List.Forall₂ (m.Piece p) values words :=
    each.imp fun _ _ word => .of_unrecorded word.owned word.raw ((word.late trivial).unrecorded fresh) never
  by_cases few : c.args.length ≤ 2
  · have only : ¬2 < c.args.length := Nat.not_lt.mpr few
    by_cases precise : levels.precision .array = .precise
    · have counts : CountsWords levels c.args := ⟨few, precise⟩
      obtain ⟨m', es, run, elements', pieces, tainted⟩ := pieces_of_split counts result elements
        (each.imp fun _ _ word => ⟨word.owned, word.raw⟩)
        (fun mem => Bool.false_ne_true (clean_charBits clean true mem).symm)
      rw [call_split named (by rw [run]), run]
      refine ⟨es, elements', pieces.imp fun _ _ piece => ?_, ?_⟩
      · simpa only [counts, true_and] using piece
      · simpa only [counts, only, true_and, false_and, or_false] using tainted
    · have never : ¬CountsWords levels c.args := fun counts => precise counts.2
      have run : split levels c m = (true, m) := by
        have plain := object?_of_stringOf? text
        have props : m.anyProps c.base = false := by
          have untainted := (isTainted_of_plain plain).trans clean
          exact (Bool.or_eq_false_iff.mp untainted).2
        rw [split_apply, if_neg only, result, show m.valueOf (.object array) = .object array from rfl,
          elements]
        dsimp only
        rw [if_neg precise, props, if_neg Bool.false_ne_true]
      rw [call_split named (by rw [run]), run]
      have pieces := untainted (p := CountsWords levels c.args ∧
        m.shadow.frame.callType.skipsWrapping = false) fun both => never both.1
      refine ⟨values, elements, pieces, ?_⟩
      rw [isTainted_array_iff elements pieces]
      simp only [never, only, false_and, or_false]
  · have never : ¬CountsWords levels c.args := fun counts => few counts.1
    have many : 2 < c.args.length := Nat.lt_of_not_le few
    have rule : (call levels c m).2 = (unmodelled levels c m).2 := by
      rw [call_apply, named]
      show (if (split levels c m).1 then _ else _) = _
      rw [split_apply, if_pos many]
      rfl
    obtain ⟨marks, identities, own⟩ := unmodelled_of_clean levels text clean result
    have pieces := (untainted (p := CountsWords levels c.args ∧
      m.shadow.frame.callType.skipsWrapping = false) fun both => never both.1).imp
        fun _ _ piece => piece.congr marks.wraps identities
    have elements' : (unmodelled levels c m).2.heap.elements? (.object array) = some values := by
      rw [marks.heap]
      exact elements
    rw [rule]
    refine ⟨values, elements', pieces, ?_⟩
    rw [isTainted_array_iff elements' pieces, own, Bool.or_eq_true, List.any_eq_true]
    simp only [never, many, false_and, true_and, or_false, false_or]
    exact or_comm

end TextRule

namespace Memory

variable {m m₁ m' : Memory} {v w : Value} {o : ObjectId}

/-- What comes back for a value from a native function: the object or the literal under its identity, and
without any shadow where literals do not get one. -/
structure Returns (m m' : Memory) (v w : Value) : Prop where
  answers : m.shadow.frame.callType.skipsWrapping = false → m.Answers m' v w
  plain : m.shadow.frame.callType.skipsWrapping = true → w = m.valueOf v

/-- What is recorded for an object is hidden by no note. -/
theorem Retells.chars_object (told : m.Retells m') (o : ObjectId) :
    (m'.stored? (.object o)).bind (·.chars) = (m.stored? (.object o)).bind (·.chars) := by
  rw [stored?_of_key (v := .object o) rfl, stored?_of_key (v := .object o) rfl]
  rcases told.get?_cases (.object o) with ⟨e, e', before, after, -, chars⟩ | ⟨before, clear⟩
  · rw [before, after, Option.bind_some, Option.bind_some, chars]
  · rw [before]
    rcases after : m'.shadow.entries.get? (.object o) with _ | e'
    · rfl
    · obtain ⟨u, tracked, -, chars⟩ := clear e' after
      have text : m.stringOf? u = none := by
        cases u with
        | object o' => rfl
        | literal l => cases tracked
        | shadow handle identity raw =>
          rw [ShadowState.keyOf] at tracked
          split at tracked <;> cases tracked
      rw [Option.bind_some, chars, charMap?, text]
      rfl

/-- Objects have no shadows that could be lost. -/
theorem Answers.of_object (m m' : Memory) (o : ObjectId) : m.Answers m' (.object o) (.object o) :=
  ⟨fun _ same => same, nofun⟩

namespace Returns

theorem valueOf (h : m.Returns m' v w) : m'.valueOf w = m.valueOf v := by
  cases skips : m.shadow.frame.callType.skipsWrapping with
  | true => rw [h.plain skips, valueOf_valueOf]
  | false => exact (h.answers skips).valueOf

theorem cases (h : m.Returns m' v w) :
    m.Answers m' v w ∧ (m.shadow.frame.callType.skipsWrapping = false ∨ v.object?.isSome = true) ∨
      (∃ l, w = .literal l) ∧ m.shadow.frame.callType.skipsWrapping = true ∧ v.object? = none := by
  cases skips : m.shadow.frame.callType.skipsWrapping with
  | false => exact .inl ⟨h.answers skips, .inl rfl⟩
  | true =>
    have same := h.plain skips
    cases v with
    | object o =>
      obtain rfl : w = .object o := same
      exact .inl ⟨.of_object m m' o, .inr rfl⟩
    | literal l => exact .inr ⟨⟨l, same⟩, rfl, rfl⟩
    | shadow handle identity raw =>
      rw [Memory.valueOf, ShadowState.valueOf] at same
      split at same <;> exact .inr ⟨⟨_, same⟩, rfl, rfl⟩

variable (told : m.Retells m₁) (same : m₁.SameEntries m') (bounded : m.shadow.Bounded)
include told same bounded

/-- The bit of a literal is lost together with its shadow. -/
theorem taintBit_iff (h : m.Returns m' v w) : m'.taintBit w = true ↔
    m.taintBit v = true ∧ (m.shadow.frame.callType.skipsWrapping = false ∨ v.object?.isSome = true) := by
  rcases h.cases with ⟨answers, kept⟩ | ⟨⟨l, rfl⟩, skips, plain⟩
  · rw [answers.taintBit told same bounded]
    exact (and_iff_left kept).symm
  · rw [skips, plain]
    exact ⟨nofun, fun ⟨_, kept⟩ => kept.elim nofun nofun⟩

theorem ownTaint_of_clean (h : m.Returns m' v w) (clean : m.ownTaint v = false) : m'.ownTaint w = false := by
  rcases h.cases with ⟨answers, -⟩ | ⟨⟨l, rfl⟩, -⟩
  · rw [answers.ownTaint told same bounded, clean]
  · exact ownTaint_of_none rfl

end Returns

end Memory

namespace Session

/-- A text comes up, where characters of strings and elements of arrays are tracked. -/
def withText (text : String) : Tracker :=
  (run (start preciseWords ⟨#[]⟩) [.host textMethods, .hook (.literal (.string text))]).tracker

end Session

namespace Tracker

variable {t t₁ t' : Tracker} {c c' q : Call} {s : String} {r : Value} {array : ObjectId}
  {words : List (List Char)} {m₁ m : Memory} {levels : Levels}

/-- The hook after a call of a native function hands back an array. Where literals do not get shadows, it
hands back the operands as they are. -/
theorem closeCall_of_object {frame : Frame} {below : List Frame} {fn : Function} (outside : q.external = true)
    (method : q.method = true) (function : m₁.heap.function? q.f = some fn)
    (saved : m₁.shadow.framesAt q.site = frame :: below)
    (closed : closeCall q (.object array) levels m₁ = (.ok (c', r), m)) :
    m₁.Redresses levels m ∧ m.shadow.frame.callType = frame.callType ∧ r = .object array ∧ c'.f = q.f ∧
      (frame.callType.skipsWrapping = true → c'.base = q.base ∧ c'.args = q.args) := by
  obtain ⟨sh, args', m₂, base', m₃, f', m₄, restored, run₂, run₃, run₄, run₅, rfl⟩ :=
    closeCall_eq_ok outside method closed
  obtain ⟨redresses, callType₂⟩ := redresses_reopened saved restored run₂
  have same₄ := MemoryM.wrap_of_not_bare levels (isBareLiteral_of_function function) m₃
  have same₅ := MemoryM.wrap_of_not_bare levels (v := .object array) rfl m₄
  have wrapped₃ := redresses_wrap levels q.base m₂
  have wrapped₄ := redresses_wrap levels q.f m₃
  have wrapped₅ := redresses_wrap levels (.object array) m₄
  have callType₃ := (MemoryM.stacks_wrap levels q.base m₂).callType
  have callType₄ := (MemoryM.stacks_wrap levels q.f m₃).callType
  have callType₅ := (MemoryM.stacks_wrap levels (.object array) m₄).callType
  rw [run₃] at wrapped₃ callType₃
  rw [run₄] at wrapped₄ callType₄ same₄
  rw [run₅] at wrapped₅ callType₅ same₅
  refine ⟨redresses.trans (wrapped₃.trans (wrapped₄.trans wrapped₅)),
    by rw [callType₅, callType₄, callType₃, callType₂], same₅, same₄, fun skips => ⟨?_, ?_⟩⟩
  · have fixed := MemoryM.wrap_fst levels (m := m₂) (v := q.base) (.inl (by rw [callType₂, skips]))
    rwa [run₃] at fixed
  · obtain ⟨_, restored', current, -⟩ := restoreFrame_ok saved
    rw [restored] at restored'
    cases restored'
    have fixed := MemoryM.restoreArguments_fst levels (Memory.policyOf ⟨m₁.heap, sh⟩ levels q.base) q.f q.args
      (m := ⟨m₁.heap, sh⟩) (by rw [current, skips])
    rwa [run₂] at fixed

/-- After a method of strings has returned an array, its operands come back. -/
theorem returns_of_array {f : StringMethod} {v : Value} {heap : Heap} (calls : t.CallsText c f s)
    (h : NativeRun t c f.name (.string f) c' r t' q t₁ v heap m) (object : v = .object array) :
    Memory.Redresses t.settings.policies ⟨heap, t₁.memory.shadow⟩ m ∧
      m.shadow.frame.callType = t.memory.shadow.frame.callType ∧ r = .object array ∧ c'.f = q.f ∧
      t.memory.Returns m c.base c'.base ∧ List.Forall₂ (t.memory.Returns m) c.args c'.args := by
  have passed := h.passed
  have closed := h.closed
  obtain ⟨base, args, frame, below, idf, idb, ids, frames, callType, reserves, reserves', reserved, -⟩ :=
    calls.handed h.before
  have saved : t₁.memory.shadow.framesAt q.site = frame :: below := by rw [passed]; exact frames
  have value : t.memory.valueOf c.base = q.base := by rw [base]; exact valueOf_of_stringOf? calls.base
  rw [object] at closed
  obtain ⟨redresses, callType', result, f', plain⟩ := closeCall_of_object (by rw [passed]) h.function.method
    h.function.function saved closed
  rw [callType] at callType' plain
  refine ⟨redresses, callType', result, f', ?_⟩
  cases skips : t.memory.shadow.frame.callType.skipsWrapping with
  | true =>
    obtain ⟨base', args'⟩ := plain skips
    refine ⟨⟨fun wraps => (nomatch skips.symm.trans wraps), fun _ => base'.trans value.symm⟩, ?_⟩
    rw [args', args, List.forall₂_map_right_iff, List.forall₂_same]
    exact fun a _ => ⟨fun wraps => (nomatch skips.symm.trans wraps), fun _ => rfl⟩
  | false =>
    have restores : RestoresArguments t.settings.policies t.memory ⟨heap, t₁.memory.shadow⟩ frame c q := by
      refine restoresArguments_stripped args (fun sh => ?_) h.follows.memory (by rw [callType, skips])
        reserves' reserved
      rw [base]
      exact t.settings.policies.passing_string heap s _ _ _
    obtain ⟨-, -, -, -, answer, answers, -⟩ := closeCall_answers (by rw [passed]) h.function.method value
      h.function.function saved (by rw [callType, skips]) reserves restores
      (by rw [args, List.length_map, reserves'.length_eq]) reserved closed
    exact ⟨⟨fun _ => answer, fun plain => (nomatch skips.symm.trans plain)⟩,
      answers.imp fun _ _ answer => ⟨fun _ => answer, fun plain => (nomatch skips.symm.trans plain)⟩⟩

/-- A new array of these words. -/
def arrayOf (words : List (List Char)) : HeapObject :=
  { kind := .array (words.map fun word => .string (String.ofList word)) }

/-- The words in a new array are bare. -/
theorem brings_allocArray {p : Prop} {n : Nat} (minted : n ≤ m.shadow.nextIdentity)
    (words : List (List Char)) :
    Brings p n words { m with heap := (m.heap.alloc (arrayOf words)).2 } m.heap.objects.size where
  untagged := by
    show ((m.heap.alloc _).2.get m.heap.objects.size).importTag = none
    rw [Heap.get_alloc_self]
    rfl
  minted := minted
  held := by
    refine ⟨words.map fun word => .string (String.ofList word), ?_, ?_⟩
    · rw [Heap.held?, Heap.get_alloc_self]
      rfl
    · rw [List.forall₂_map_left_iff, List.forall₂_same]
      exact fun word _ => ⟨trivial, rfl, fun _ => .inl rfl⟩

/-- The method `split` returns a new array of words. -/
theorem run_split_string {h h' : Heap} {args : List Value} {v : Value}
    (ran : Native.run (.string .split) h (.literal (.string s)) args = .ok (v, h')) :
    ∃ words, StringMethod.split.run h s.toList args = .ok (.texts words) ∧
      v = .object h.objects.size ∧ h' = (h.alloc (arrayOf words)).2 := by
  rw [StringMethod.run_string] at ran
  rcases text : StringMethod.split.run h s.toList args with e | result <;> rw [text] at ran
  · cases ran
  · obtain ⟨n, rfl⟩ := StringMethod.run_split text
    obtain ⟨value, heap⟩ := Prod.mk.inj (Except.ok.inj ran)
    exact ⟨_, rfl, value.symm, heap.symm⟩

/-- What a complete call of `split` does. The method returns a new array of words, and the hook after the
call, which leaves `m`, puts shadows on. Then the rule for words applies. -/
structure SplitRun (t : Tracker) (c : Call) (s : String) (c' : Call) (t' : Tracker)
    (words : List (List Char)) (array : ObjectId) (m : Memory) : Prop where
  ran : StringMethod.split.run (callPre c t).2.memory.heap s.toList (c.args.map t.memory.valueOf) =
    .ok (.texts words)
  brings : m.Brings True t.memory.shadow.nextIdentity words array
  notes : ∃ told, t.memory.Retells told ∧ told.SameEntries m
  callType : m.shadow.frame.callType = t.memory.shadow.frame.callType
  base : t.memory.Returns m c.base c'.base
  args : List.Forall₂ (t.memory.Returns m) c.args c'.args
  functionName : m.functionName c'.f = StringMethod.split.name
  rule : t'.memory = (propagateCall c' (.object array) t.settings.policies m).2.ended

/-- A complete call of `split` that succeeds. -/
theorem splitRun_of_invoke (calls : t.CallsText c .split s) (run : invoke c none t = (.ok (c', r), t')) :
    ∃ words array m, r = .object array ∧ SplitRun t c s c' t' words array m := by
  have native := calls.native
  obtain ⟨q, t₁, v, heap, m, h⟩ := nativeRun_of_invoke native StringMethod.split.name_ne_empty run
  obtain ⟨base, args, frame, below, idf, idb, ids, frames, -, -, -, -, treeless⟩ := calls.handed h.before
  have undresses := callPre_undresses native.real h.before
  obtain ⟨told, retells, same⟩ := retells_callPre native.real h.before
  obtain ⟨words, ran, rfl, rfl⟩ := run_split_string (s := s) (by rw [← base]; exact h.ran)
  obtain ⟨redresses, callType, rfl, f', returns, returns'⟩ := returns_of_array calls h rfl
  refine ⟨words, _, m, rfl, ?_⟩
  exact {
    ran := by rw [h.before, ← args, ran]
    brings := brings_closeCall (brings_allocArray undresses.minted words) (by rw [h.passed]) h.function.method
      (by rw [h.passed]; exact frames) (treeless _ undresses.evolves.size) h.closed
    notes := ⟨told, retells, trans_of SameEntries same redresses.quiet.entries⟩
    callType
    base := returns
    args := returns'
    functionName := h.functionName StringMethod.split.name_ne_empty redresses.evolves f'
    rule := h.rule }

namespace SplitRun

variable (h : SplitRun t c s c' t' words array m)
include h

/-- Arguments that are tainted after the call were so before, unless their shadows are lost. -/
theorem exists_taintBit_iff (bounded : t.memory.shadow.Bounded) :
    (∃ a ∈ c'.args, m.taintBit a = true) ↔ ∃ a ∈ c.args, t.memory.taintBit a = true ∧
      (t.memory.shadow.frame.callType.skipsWrapping = false ∨ a.object?.isSome = true) := by
  obtain ⟨told, retells, same⟩ := h.notes
  have returns := h.args
  generalize c.args = as, c'.args = ws at returns
  induction returns with
  | nil => simp
  | cons head _ ih =>
    simp only [List.mem_cons, exists_eq_or_imp, ih, head.taintBit_iff retells same bounded]

variable (calls : t.CallsText c .split s)
include calls

theorem string_base : m.stringOf? c'.base = some s := by
  rw [stringOf?, h.base.valueOf]
  exact calls.base

theorem rule_of_precise (precise : t.settings.policies.precision .string = .precise) : t'.memory =
      (TextRule.call t.settings.policies ⟨c'.f, c'.base, c'.args, .object array⟩ m).2.ended := by
  have policy := policyOf_of_stringOf? (h.string_base calls) precise
  rw [h.rule, propagateCall, bind_apply, get_apply]
  dsimp only
  rw [policy]
  rfl

end SplitRun

/-- Splitting an untainted string taints what has no characters to be untainted by. -/
theorem split_taints_iff (reachable : Reachable t)
    (precise : t.settings.policies.precision .string = .precise) (calls : t.CallsText c .split s)
    (clean : t.memory.isTainted c.base = false) :
    (∃ e t', invoke c none t = (.error e, t') ∧ (t.memory.shadow.AtRest → e.EndsRun)) ∨
      ∃ c' r t' words es, invoke c none t = (.ok (c', r), t') ∧
        StringMethod.split.run (callPre c t).2.memory.heap s.toList (c.args.map t.memory.valueOf) =
          .ok (.texts words) ∧
        t'.memory.heap.elements? r = some es ∧
        List.Forall₂ (t'.memory.Piece (TextRule.CountsWords t.settings.policies c.args ∧
          t.memory.shadow.frame.callType.skipsWrapping = false)) es words ∧
        (t'.memory.isTainted r = true ↔ t.memory.ownTaint r = true ∨
          TextRule.CountsWords t.settings.policies c.args ∧ ((∀ word ∈ words, word = []) ∨
            (t.memory.shadow.frame.callType.skipsWrapping = false ∧ [] ∈ words) ∧
              (t.memory.stored? r).bind (·.chars) = none) ∨
          2 < c.args.length ∧ ∃ a ∈ c.args, t.memory.taintBit a = true ∧
            (t.memory.shadow.frame.callType.skipsWrapping = false ∨ a.object?.isSome = true)) := by
  rcases invoke_cases calls.native StringMethod.split.name_ne_empty with
    refused | ⟨q, t₁, e, before, ran, failed⟩ | ⟨c', r, t', run⟩
  · exact .inl refused
  · -- the method does not fail
    obtain ⟨base, -⟩ := calls.handed before
    rw [base, StringMethod.run_string] at ran
    cases ran
  · obtain ⟨words, array, m, rfl, h⟩ := splitRun_of_invoke calls run
    have bounded := reachable.bounded
    obtain ⟨told, retells, same⟩ := h.notes
    have base : m.ownTaint c'.base = false := h.base.ownTaint_of_clean retells same bounded
      ((isTainted_of_plain (object?_of_stringOf? calls.base)).symm.trans clean)
    obtain ⟨es, elements, pieces, tainted⟩ := TextRule.pieces_of_call t.settings.policies
      (c := ⟨c'.f, c'.base, c'.args, .object array⟩) h.functionName rfl (h.string_base calls) base h.brings
      fun id fresh => by
        rw [same, retells.unrecorded bounded fresh]
    have own := (Answers.of_object t.memory m array).ownTaint retells same bounded
    have chars : (m.stored? (.object array)).bind (·.chars) =
        (t.memory.stored? (.object array)).bind (·.chars) := by
      rw [← retells.chars_object, stored?_of_key (m := m) (v := .object array) rfl, same,
        stored?_of_key (m := told) (v := .object array) rfl]
    have counts : TextRule.CountsWords t.settings.policies c'.args =
        TextRule.CountsWords t.settings.policies c.args := by
      rw [TextRule.CountsWords, TextRule.CountsWords, h.args.length_eq]
    dsimp only at elements pieces tainted
    rw [counts, h.callType] at pieces
    rw [counts, h.callType, own, chars, ← h.args.length_eq, h.exists_taintBit_iff bounded] at tainted
    refine .inr ⟨c', .object array, t', words, es, run, h.ran, ?_⟩
    rw [h.rule_of_precise calls precise]
    exact ⟨elements, pieces.imp fun _ _ piece => piece.congr rfl fun _ => rfl, tainted⟩

open Session

/-- A text that ends with the separator has an empty word at its end, which is tainted. So is the array. -/
theorem split_taints_trailing : ∃ c' r t' e₀ e₁,
    invoke (callText 7 "a," [.string ","]) none (withText "a,") = (.ok (c', r), t') ∧
      t'.memory.heap.elements? r = some [e₀, e₁] ∧ t'.memory.isTainted e₀ = false ∧
      t'.memory.isTainted e₁ = true ∧ t'.memory.isTainted r = true := by
  rcases split_taints_iff (t := withText "a,") (c := callText 7 "a," [.string ","]) (s := "a,")
      (reachable_run (.start _ ⟨#[]⟩) _) (by decide +kernel) ⟨by decide +kernel, rfl, by decide +kernel⟩
      (by decide +kernel) with
    ⟨e, t', failed, -⟩ | ⟨c', r, t', words, es, run, ran, held, pieces, tainted⟩
  · have succeeds : (invoke (callText 7 "a," [.string ","]) none (withText "a,")).1.isOk = true := by
      decide +kernel
    rw [failed] at succeeds
    cases succeeds
  · have counts : TextRule.CountsWords (withText "a,").settings.policies
        (callText 7 "a," [.string ","]).args := ⟨by decide, by decide +kernel⟩
    have wraps : (withText "a,").memory.shadow.frame.callType.skipsWrapping = false := by decide +kernel
    obtain rfl : words = [['a'], []] := by
      have pieces : splitPieces "a,".toList (textArgument? _ [Value.string ","] 0) = words :=
        StringResult.texts.inj (Except.ok.inj ran)
      rw [← pieces, textArgument?_of_string (s := ",") _ rfl]
      decide +kernel
    have unrecorded : (withText "a,").memory.stored? r = none := by
      have unrecorded : (invoke (callText 7 "a," [.string ","]) none (withText "a,")).1.toOption.any
          (fun p => ((withText "a,").memory.stored? p.2).isNone) = true := by decide +kernel
      rw [run] at unrecorded
      exact Option.isNone_iff_eq_none.mp unrecorded
    cases pieces with
    | cons first rest =>
      cases rest with
      | cons second rest =>
        cases rest
        refine ⟨c', r, t', _, _, run, held, ?_, second.tainted.mpr ⟨⟨counts, wraps⟩, rfl⟩, tainted.mpr ?_⟩
        · exact Bool.eq_false_iff.mpr fun tainted => nomatch (first.tainted.mp tainted).2
        · exact .inr (.inl ⟨counts, .inr ⟨⟨wraps, by simp⟩, by rw [unrecorded]; rfl⟩⟩)

end Tracker

namespace Session

/-- An untainted text that is nothing but a separator is split, and everything that comes out is tainted. -/
theorem separator_taints : Reachable (withText ",") ∧
    (withText ",").settings.policies.precision .string = .precise ∧
    (withText ",").CallsText (callText 7 "," [.string ","]) .split "," ∧
    (withText ",").memory.isTainted (spelled ",") = false ∧
    ∃ c' r t', invoke (callText 7 "," [.string ","]) none (withText ",") = (.ok (c', r), t') ∧
      t'.memory.isTainted r = true ∧
      (t'.memory.heap.elements? r).map (·.map t'.memory.isTainted) = some [true, true] := by
  refine ⟨reachable_run (.start _ ⟨#[]⟩) _, by decide +kernel, ⟨by decide +kernel, rfl, by decide +kernel⟩,
    by decide +kernel, ?_⟩
  obtain ⟨c', r, t', run, result⟩ := exists_of_result (c := callText 7 "," [.string ","])
    (t := withText ",") (a := (true, some [true, true]))
    (g := fun v m => (m.isTainted v, (m.heap.elements? v).map (·.map m.isTainted))) (by decide +kernel)
  obtain ⟨array, elements⟩ := Prod.mk.inj result
  exact ⟨c', r, t', run, array, elements⟩

end Session

end ShadowTaint
