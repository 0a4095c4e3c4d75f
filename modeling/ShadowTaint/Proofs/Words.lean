import Mathlib.Algebra.GroupWithZero.Nat
import ShadowTaint.Proofs.Reexecution
import ShadowTaint.Proofs.Respelling
/-!
# Words in their places

Splitting a text returns words and not where they were cut out. The rule for words counts: each word begins
one separator after the end of the one before.

## Main definitions

- `Text.wordStart`: where a word begins.
- `Text.Placed`: words stand in a text one after the other, with a separator between two of them.

## Main statements

- `Text.drop_joinWith`: behind the words before it and their separators the text goes on with a word.
- `Tracker.words_exact`: every word gets a new shadow, with the taint of the characters that it was cut
  out of.
-/

namespace ShadowTaint

open Memory Tracker

namespace Text

/-- Where a word begins, if a separator follows on each word before it. -/
def wordStart (words : List (List Char)) (separator i : Nat) : Nat :=
  ((words.take i).map (·.length + separator)).sum

@[simp] theorem wordStart_zero (words : List (List Char)) (separator : Nat) :
    wordStart words separator 0 = 0 := by
  simp [wordStart]

@[simp] theorem wordStart_cons (word : List Char) (words : List (List Char)) (separator i : Nat) :
    wordStart (word :: words) separator (i + 1) = word.length + separator + wordStart words separator i := by
  simp [wordStart]

theorem wordStart_succ {words : List (List Char)} {word : List Char} (separator : Nat) {i : Nat}
    (at_i : words[i]? = some word) :
    wordStart words separator (i + 1) = wordStart words separator i + word.length + separator := by
  simp [wordStart, List.take_add_one, at_i, Nat.add_assoc]

theorem wordStart_take {words : List (List Char)} (separator : Nat) {i n : Nat} (le : i ≤ n) :
    wordStart (words.take n) separator i = wordStart words separator i := by
  rw [wordStart, wordStart, List.take_take, Nat.min_eq_left le]

theorem splitAt_ne_nil (first : Char) (others s : List Char) : splitAt first others s ≠ [] := by
  rw [splitAt]
  split <;> simp

theorem joinWith_cons (sep word : List Char) {rest : List (List Char)} (more : rest ≠ []) :
    joinWith sep (word :: rest) = word ++ sep ++ joinWith sep rest := by
  cases rest with
  | nil => exact absurd rfl more
  | cons next rest => rfl

/-- The pieces with the separator between them are the text. -/
theorem joinWith_splitAt (first : Char) (others s : List Char) :
    joinWith (first :: others) (splitAt first others s) = s := by
  induction s using splitAt.induct first others with
  | case1 s missing =>
    rw [splitAt, missing]
    rfl
  | case2 s i found ih =>
    obtain ⟨rest, there⟩ := (indexOf?_eq_some.mp found).1
    rw [splitAt, found]
    dsimp only
    rw [joinWith_cons _ _ (splitAt_ne_nil _ _ _), ih, ← List.drop_drop, ← there, List.drop_left,
      List.append_assoc, there, List.take_append_drop]

theorem joinWith_singles (s : List Char) : joinWith [] (s.map fun c => [c]) = s := by
  induction s with
  | nil => rfl
  | cons c s ih =>
    cases s with
    | nil => rfl
    | cons d s => simpa [joinWith] using ih

/-- Behind the words before it and their separators the text goes on with a word. -/
theorem drop_joinWith (sep : List Char) {words : List (List Char)} {i : Nat} (inside : i < words.length) :
    (joinWith sep words).drop (wordStart words sep.length i) = joinWith sep (words.drop i) := by
  induction i generalizing words with
  | zero => simp
  | succ i ih =>
    cases words with
    | nil => simp at inside
    | cons word rest =>
      have inside' : i < rest.length := by simpa using inside
      have more : rest ≠ [] := List.ne_nil_of_length_pos (by omega)
      rw [wordStart_cons, joinWith_cons _ _ more, List.drop_succ_cons, ← ih inside', ← List.length_append,
        ← List.drop_drop, List.drop_left]

section Spans

variable {s sep word : List Char} {words : List (List Char)} {i : Nat} (joined : joinWith sep words = s)
  (at_i : words[i]? = some word)
include joined at_i

theorem drop_wordStart : ∃ rest, s.drop (wordStart words sep.length i) = word ++ rest ∧
    (i + 1 < words.length → sep <+: rest) := by
  have inside : i < words.length := (List.getElem?_eq_some_iff.mp at_i).1
  rw [← joined, drop_joinWith sep inside, List.drop_eq_getElem_cons inside,
    (List.getElem?_eq_some_iff.mp at_i).2]
  by_cases last : words.drop (i + 1) = []
  · refine ⟨[], by rw [last, List.append_nil]; rfl, fun more => ?_⟩
    have short := List.drop_eq_nil_iff.mp last
    omega
  · exact ⟨_, by rw [joinWith_cons _ _ last, List.append_assoc], fun _ => List.prefix_append _ _⟩

/-- Where a word begins, it stands in the text. -/
theorem charsBetween_word : charsBetween s (wordStart words sep.length i)
    (wordStart words sep.length i + word.length) = word := by
  obtain ⟨rest, behind, -⟩ := drop_wordStart joined at_i
  rw [charsBetween, List.drop_take, behind, Nat.add_sub_cancel_left, List.take_left]

/-- Between a word and the next one stands a separator. -/
theorem charsBetween_separator (more : i + 1 < words.length) :
    charsBetween s (wordStart words sep.length i + word.length) (wordStart words sep.length (i + 1)) = sep := by
  obtain ⟨rest, behind, separated⟩ := drop_wordStart joined at_i
  obtain ⟨after, rfl⟩ := separated more
  rw [wordStart_succ _ at_i, charsBetween, List.drop_take, ← List.drop_drop, behind, List.drop_left,
    Nat.add_sub_cancel_left, List.take_left]

end Spans

/-- The words stand in the text one after the other, with one separator between two of them. -/
def Placed (s sep : List Char) (words : List (List Char)) : Prop :=
  ∀ i word, words[i]? = some word →
    charsBetween s (wordStart words sep.length i) (wordStart words sep.length i + word.length) = word ∧
      (i + 1 < words.length → charsBetween s (wordStart words sep.length i + word.length)
        (wordStart words sep.length (i + 1)) = sep)

/-- The first pieces of a text stand one after the other, too. -/
theorem placed_take {s sep : List Char} {pieces : List (List Char)} (joined : joinWith sep pieces = s)
    (n : Nat) : Placed s sep (pieces.take n) := by
  intro i word at_i
  obtain ⟨inside, at_i⟩ : i < n ∧ pieces[i]? = some word := by
    rw [List.getElem?_take] at at_i
    split at at_i
    · exact ⟨‹_›, at_i⟩
    · cases at_i
  rw [wordStart_take _ (Nat.le_of_lt inside), wordStart_take _ inside, List.length_take]
  exact ⟨charsBetween_word joined at_i, fun more => charsBetween_separator joined at_i (by omega)⟩

theorem Placed.length_word_le {s sep word : List Char} {words : List (List Char)} (placed : Placed s sep words)
    {i : Nat} (at_i : words[i]? = some word) : word.length ≤ s.length - wordStart words sep.length i := by
  have length := congrArg List.length (placed i word at_i).1
  rw [charsBetween, List.length_drop, List.length_take] at length
  omega

end Text

/-- The pieces of a text with the separator between them are the text. -/
theorem joinWith_splitPieces (s : List Char) (separator : Option String) :
    Text.joinWith (separator.getD "").toList (splitPieces s separator) = s := by
  rcases separator with _ | sep
  · rfl
  · rw [splitPieces, Option.getD_some]
    rcases chars : sep.toList with _ | ⟨c, rest⟩
    · exact Text.joinWith_singles s
    · exact Text.joinWith_splitAt c rest s

/-- What `split` returns is the first pieces of the text, or all of them. -/
theorem StringMethod.run_split {h : Heap} {s : List Char} {args : List Value} {result : StringResult}
    (ran : StringMethod.split.run h s args = .ok result) :
    ∃ n, result = .texts ((splitPieces s (textArgument? h args 0)).take n) := by
  cases limit : splitLimit args with
  | none =>
    refine ⟨(splitPieces s (textArgument? h args 0)).length, ?_⟩
    rw [List.take_length]
    simpa [StringMethod.run, limit] using ran.symm
  | some n => exact ⟨n, by simpa [StringMethod.run, limit] using ran.symm⟩

/-- The value is a shadow for a word, under an identity for which these bits are recorded. -/
def Memory.WordAt (m : Memory) (v : Value) (id : Identity) (word : List Char) (bits : List Bool) : Prop :=
  ∃ handle path, v = .shadow handle id (.string (String.ofList word)) ∧
    m.shadow.lookup? v = some (id, .string (String.ofList word)) ∧
    m.shadow.entries.get? (.identity id) = some ⟨bits.all fun b => b, some (.ofBits bits), path⟩

/-- Values stand for words, as shadows of the tracker or without a shadow. -/
def Memory.Spell (m : Memory) : List Value → List (List Char) → Prop :=
  List.Forall₂ fun v word => v.OwnedBy m.shadow ∧ v.raw = .string (String.ofList word)

namespace Memory

variable {m m' : Memory} {v : Value} {id : Identity} {word : List Char} {bits : List Bool}

/-- A word keeps its shadow and its taint while later words get theirs. -/
theorem WordAt.mono (h : m.WordAt v id word bits) (grows : m.Grows m') (adds : m.Adds m')
    (old : id.index < m.shadow.nextIdentity) : m'.WordAt v id word bits := by
  obtain ⟨handle, path, rfl, known, stored⟩ := h
  exact ⟨handle, path, rfl, grows.lookup? known, (adds.entries id old).trans stored⟩

theorem Spell.mono {values : List Value} {words : List (List Char)} (h : m.Spell values words)
    (grows : m.Grows m') : m'.Spell values words :=
  h.imp fun _ _ spells => ⟨grows.ownedBy spells.1, spells.2⟩

end Memory

theorem Heap.elements?_setElements {h : Heap} {id : ObjectId} {before : List Value}
    (array : (h.get id).kind = .array before) (elements : List Value) :
    (h.setElements (.object id) elements).elements? (.object id) = some elements := by
  have held : h.held? .array id = some before := by
    rw [held?, array]
    rfl
  have allocated : id < h.objects.size := allocated_of_held held
  rw [elements?_eq_some]
  simp only [setElements, Value.object?, array, setKind, get_modify_self allocated]

namespace TextRule

variable {m : Memory} (base : List Bool) (path : Provenance.Node)

/-- The taint that is recorded for a word. -/
def bitsAt (start : Nat) (word : List Char) : List Bool :=
  (List.range word.length).map fun i => base.getD (start + i) false

/-- A word gets the taint of the characters that stand in its place. -/
theorem bitsAt_eq {base : List Bool} {start : Nat} {word : List Char}
    (inside : word.length ≤ base.length - start) :
    bitsAt base start word = charsBetween base start (start + word.length) := by
  refine List.ext_getElem? fun i => ?_
  rw [bitsAt, charsBetween, List.getElem?_map, List.getElem?_drop, List.getElem?_take]
  by_cases within : i < word.length
  · rw [List.getElem?_range within, if_pos (by omega), Option.map_some,
      List.getD_eq_getElem _ _ (by omega), List.getElem?_eq_getElem (by omega)]
  · rw [List.getElem?_eq_none (by simpa using within), if_neg (by omega)]
    rfl

theorem wordBits_of_spell {value : Value} {word : List Char} (owned : value.OwnedBy m.shadow)
    (raw : value.raw = .string (String.ofList word)) (start : Nat) :
    wordBits m base start value = bitsAt base start word := by
  have stands : m.valueOf value = .string (String.ofList word) := (valueOf_of_owned owned).trans raw
  simp [wordBits, bitsAt, stands]

/-- A word gets a shadow under a new identity. -/
theorem wordAt_wrapWord (start : Nat) {value : Value} {word : List Char}
    (wraps : m.shadow.frame.callType.skipsWrapping = false) (owned : value.OwnedBy m.shadow)
    (raw : value.raw = .string (String.ofList word)) :
    (wrapWord base path start value m).2.WordAt (wrapWord base path start value m).1 ⟨m.shadow.nextIdentity⟩
        word (bitsAt base start word) ∧
      (wrapWord base path start value m).2.shadow.nextIdentity = m.shadow.nextIdentity + 1 := by
  have stands : m.valueOf value = .string (String.ofList word) := (valueOf_of_owned owned).trans raw
  have bits := wordBits_of_spell base owned raw start
  have writes := writes_wrapWord base path start value m
  have counted : (wrapWord base path start value m).2.shadow.nextIdentity =
      (MemoryM.wrapFresh (m.valueOf value) m).2.shadow.nextIdentity :=
    (MemoryM.marks_record _ _ _ _ _ _).nextIdentity
  rw [show (wrapWord base path start value m).1 = (MemoryM.wrapFresh (m.valueOf value) m).1 from rfl]
  rw [bits] at writes
  rw [stands] at writes counted ⊢
  obtain ⟨tracked, -, next⟩ := MemoryM.wrapFresh_literal wraps (.string (String.ofList word))
  obtain ⟨handle, shadowed, known⟩ := MemoryM.lookup_shadow ⟨m.shadow.nextIdentity⟩
    (.string (String.ofList word)) (m := { m with shadow := m.shadow.mint.2 }) wraps
  obtain ⟨path', entries⟩ := writes.stored
  refine ⟨⟨handle, path', shadowed, ?_, (entries _).trans (if_pos tracked)⟩, ?_⟩
  · rw [lookup?_of_wraps writes.wraps]
    exact (congrArg _ shadowed).trans known
  · rw [counted, next]

theorem length_wrapWords (separator start : Nat) (values : List Value) (m : Memory) :
    (wrapWords base path separator start values m).1.1.length = values.length := by
  induction values generalizing start m with
  | nil => rfl
  | cons value rest ih => exact congrArg Nat.succ (ih _ _)

/-- All words get shadows, one after the other, with the taint of their places. By induction on the words:
those that come later are counted from where they begin. -/
theorem wordAt_wrapWords (separator : Nat) {start i : Nat} {values : List Value} {words : List (List Char)}
    {word : List Char} (wraps : m.shadow.frame.callType.skipsWrapping = false) (spell : m.Spell values words)
    (at_i : words[i]? = some word) :
    ∃ e, (wrapWords base path separator start values m).1.1[i]? = some e ∧
      (wrapWords base path separator start values m).2.WordAt e ⟨m.shadow.nextIdentity + i⟩ word
        (bitsAt base (start + Text.wordStart words separator i) word) := by
  induction values generalizing start i words m with
  | nil =>
    cases spell
    simp at at_i
  | cons value rest ih =>
    cases spell with
    | @cons _ first _ words spells later =>
      obtain ⟨here, next⟩ := wordAt_wrapWord base path start wraps spells.1 spells.2
      have length : (m.heap.keyText (m.valueOf value)).length = first.length := by
        rw [valueOf_of_owned spells.1, spells.2]
        simp
      have spreads : m.Spreads (wrapWord base path start value m).2 :=
        within_wrapWords admitsRules_spreads base path separator start [value] m
      have frame := (adds_wrapWord base path start value m).frame
      rw [wrapWords_cons, length]
      cases i with
      | zero =>
        obtain rfl : first = word := Option.some.inj at_i
        refine ⟨_, rfl, ?_⟩
        rw [Text.wordStart_zero, Nat.add_zero, Nat.add_zero]
        exact here.mono (within_wrapWords admitsRules_spreads _ _ _ _ _ _).toGrows
          (adds_wrapWords _ _ _ _ _ _) (by rw [next]; exact Nat.lt_succ_self _)
      | succ i =>
        have wraps' : (wrapWord base path start value m).2.shadow.frame.callType.skipsWrapping = false := by
          rw [frame, wraps]
        obtain ⟨e, found, at'⟩ := @ih (wrapWord base path start value m).2
          (start + first.length + separator) i words wraps' (Spell.mono later spreads.toGrows) at_i
        have identity : m.shadow.nextIdentity + (i + 1) = m.shadow.nextIdentity + 1 + i := by omega
        have place : start + (first.length + separator + Text.wordStart words separator i) =
            start + first.length + separator + Text.wordStart words separator i := by omega
        refine ⟨e, ?_, ?_⟩
        · rw [← found, ← length]
          rfl
        · rw [Text.wordStart_cons, identity, place, ← next]
          exact at'

end TextRule

/-- Where arrays are tracked element by element, the rule for words puts what it makes of the words into the
array, and sets the bit of the array if all of them are tainted. -/
theorem TextRule.split_of_precise {levels : Levels} {c : NativeCall} {m : Memory} {array : ObjectId}
    {values : List Value} (few : c.args.length ≤ 2) (precise : levels.precision .array = .precise)
    (result : m.valueOf c.result = .object array) (held : m.heap.elements? (.object array) = some values) :
    c.result = .object array ∧
      (afterWords c values m).heap.elements? (.object array) = some (splitWords c values m).1.1 ∧
      split levels c m = (true, if (splitWords c values m).1.2
        then (setBit c.result (afterWords c values m)).2 else afterWords c values m) := by
  have marks : m.Marks (MemoryM.useNodes 1 m).2 := ((Policy.NodesUsed.refl m).more 1).marks
  have spreads : m.Spreads (splitWords c values m).2 :=
    trans_of Spreads marks.spreads (within_wrapWords admitsRules_spreads _ _ _ _ _ _)
  obtain ⟨before, array'⟩ : ∃ before, ((splitWords c values m).2.heap.get array).kind = .array before := by
    have kind := Heap.elements?_eq_some.mp held
    have holds : m.heap.held? .array array = some values := by
      rw [Heap.held?, kind]
      rfl
    have becomes := spreads.evolves.kind array (Heap.allocated_of_held holds)
    rw [kind] at becomes
    cases kind' : ((splitWords c values m).2.heap.get array).kind with
    | array before => exact ⟨before, rfl⟩
    | _ =>
      rw [kind'] at becomes
      exact becomes.elim
  refine ⟨MemoryM.objectOf?_eq_some (by rw [Memory.objectOf?, result]; rfl), ?_, ?_⟩
  · rw [afterWords, result]
    exact Heap.elements?_setElements array' _
  · rw [split_apply, if_neg (Nat.not_lt.mpr few), result, held]
    dsimp only
    rw [if_pos precise]

/-- What the rule for words leaves, where arrays are tracked element by element: every word has a new shadow
and the taint of its place. -/
theorem TextRule.words_of_split {levels : Levels} {c : NativeCall} {m : Memory} {array : ObjectId}
    {values : List Value} {words : List (List Char)} (few : c.args.length ≤ 2)
    (precise : levels.precision .array = .precise) (result : m.valueOf c.result = .object array)
    (held : m.heap.elements? (.object array) = some values)
    (wraps : m.shadow.frame.callType.skipsWrapping = false) (spell : m.Spell values words) :
    (split levels c m).1 = true ∧ ∃ es, (split levels c m).2.heap.elements? (.object array) = some es ∧
      es.length = words.length ∧ ∀ i word, words[i]? = some word → ∃ e, es[i]? = some e ∧
        (split levels c m).2.WordAt e ⟨m.shadow.nextIdentity + i⟩ word (bitsAt (m.charBits c.base)
          (Text.wordStart words (separatorLength m c.args[0]? 0) i) word) := by
  obtain ⟨object, elements, run⟩ := split_of_precise few precise result held
  have marks : m.Marks (MemoryM.useNodes 1 m).2 := ((Policy.NodesUsed.refl m).more 1).marks
  -- the bit of the array is apart from the words
  have apart {v : Value} {id : Identity} {word : List Char} {bits : List Bool}
      (h : (splitWords c values m).2.WordAt v id word bits) :
      (setBit c.result (afterWords c values m)).2.WordAt v id word bits := by
    obtain ⟨handle, path, shape, known, stored⟩ := h
    have writes := writes_setBit c.result (afterWords c values m)
    obtain ⟨path', entries⟩ := writes.stored
    refine ⟨handle, path, shape, (lookup?_of_wraps writes.wraps v).trans known, (entries _).trans ?_⟩
    rw [object, if_neg (by intro same; cases same)]
    exact stored
  rw [run]
  refine ⟨rfl, (splitWords c values m).1.1, ?_, ?_, fun i word at_i => ?_⟩
  · dsimp only
    split
    · rw [(marks_setBit c.result (afterWords c values m)).heap]
      exact elements
    · exact elements
  · rw [splitWords, length_wrapWords]
    exact spell.length_eq
  · have wraps' : (MemoryM.useNodes 1 m).2.shadow.frame.callType.skipsWrapping = false := by
      rw [marks.frame, wraps]
    obtain ⟨e, found, at'⟩ := @wordAt_wrapWords (MemoryM.useNodes 1 m).2 (m.charBits c.base)
      (m.entryOf c.base).path (separatorLength m c.args[0]? 0) 0 i values words word wraps'
      (spell.mono marks.spreads.toGrows) at_i
    rw [marks.nextIdentity, Nat.zero_add] at at'
    refine ⟨e, found, ?_⟩
    dsimp only
    split
    · exact apart at'
    · exact at'

namespace Session

/-- The settings in which characters of strings and elements of arrays are tracked. -/
def preciseWords : Settings := { policies := (({} : Levels).set "string" .precise).set "array" .precise }

/-- The tracker when a string has come up and one of its characters is tainted, with these settings. -/
def withWords (text key : String) : Tracker :=
  (run (start preciseWords ⟨#[]⟩) (spelling text key)).tracker

end Session

namespace Tracker

variable {t t' : Tracker} {c c' : Call} {s : String} {r v : Value}

namespace TextRun

variable {words : List (List Char)} {m₁ m₂ m : Memory} (h : TextRun t c .split s c' r t' (.texts words) v m₁ m₂ m)
include h

theorem array_of_texts : v = .object m₁.heap.objects.size ∧ m₂.heap =
    (m₁.heap.alloc { kind := .array (words.map fun w => .string (String.ofList w)) }).2 :=
  ⟨(congrArg Prod.fst h.delivered).symm, (congrArg Prod.snd h.delivered).symm⟩

/-- When the rule applies, the new array holds the words, possibly with shadows of the tracker's. -/
theorem spell_of_texts (precise : t.settings.policies.precision .array = .precise) :
    ∃ values, m.heap.elements? (.object m₁.heap.objects.size) = some values ∧ m.Spell values words := by
  obtain ⟨-, heap⟩ := h.array_of_texts
  have object : m₂.heap.get m₁.heap.objects.size =
      { kind := .array (words.map fun w => .string (String.ofList w)) } := by
    rw [heap, Heap.get_alloc_self]
  have sound : m.SoundAt m₁.heap.objects.size := by
    refine h.rewords.soundAt _ ?_
    rw [SoundAt, object]
    refine HeapObject.holding_empty fun w mem => ?_
    obtain ⟨word, -, rfl⟩ := List.mem_map.mp mem
    trivial
  have elements := (h.rewords.respells (.inl precise)).elements (.object m₁.heap.objects.size)
  rw [Heap.elements?_eq_some.mpr (congrArg HeapObject.kind object)] at elements
  rcases held : m.heap.elements? (.object m₁.heap.objects.size) with _ | values
  · rw [held] at elements
    cases elements
  · rw [held] at elements
    cases elements with
    | some raws =>
      have owned (e : Value) (mem : e ∈ values) : e.OwnedBy m.shadow := by
        have kind := sound.kind
        rw [Heap.elements?_eq_some.mp held] at kind
        exact kind e mem
      refine ⟨values, rfl, List.forall₂_iff_get.mpr ⟨by simpa using raws.length_eq.symm, ?_⟩⟩
      intro i inside inside'
      refine ⟨owned _ (List.get_mem _ _), (raws.get (by simpa using inside') inside).trans ?_⟩
      simp [Value.raw]

/-- The rule counts with the separator that the method searched for. -/
theorem separatorLength_eq (precise : t.settings.policies.precision .array = .precise)
    (unfolds : ∀ a, c.args[0]? = some a → m₁.heap.Unfolds (t.memory.valueOf a)) :
    TextRule.separatorLength m c'.args[0]? 0 =
      ((textArgument? m₁.heap (c.args.map t.memory.valueOf) 0).getD "").toList.length := by
  rw [textArgument?, List.getElem?_map]
  rcases TextRule.getElem?_of_forall₂ h.args 0 with ⟨missing, missing'⟩ | ⟨a, w, at_0, at_0', answers⟩
  · rw [missing, missing']
    rfl
  · have text : m.heap.keyText (t.memory.valueOf a) = m₁.heap.keyText (t.memory.valueOf a) := by
      rw [(h.rewords.respells (.inl precise)).keyText, h.array_of_texts.2,
        Heap.keyText_alloc (unfolds a at_0)]
    rw [at_0, at_0', TextRule.separatorLength, Option.map_some, Option.map_some]
    dsimp only
    rw [answers.valueOf, text]
    split
    · rfl
    · rw [Option.getD_some, String.length_toList]

end TextRun

/-- Where characters of strings and elements of arrays are tracked and literals get shadows, a string that is
split gives an array of new shadows, one for each word. The words stand in the string one after the other with
one separator between them, and each has, character by character, the taint of its place. The text of the
separator has to be finite: an array that contains itself has none. -/
theorem words_exact (reachable : Reachable t)
    (wraps : t.memory.shadow.frame.callType.skipsWrapping = false)
    (precise : t.settings.policies.precision .string = .precise)
    (elements : t.settings.policies.precision .array = .precise) (calls : t.CallsText c .split s)
    (few : c.args.length ≤ 2)
    (unfolds : ∀ a, c.args[0]? = some a → (callPre c t).2.memory.heap.Unfolds (t.memory.valueOf a)) :
    (∃ e t', invoke c none t = (.error e, t') ∧ (t.memory.shadow.AtRest → e.EndsRun)) ∨
      ∃ c' r t' words sep es k, invoke c none t = (.ok (c', r), t') ∧
        StringMethod.split.run (callPre c t).2.memory.heap s.toList (c.args.map t.memory.valueOf) =
          .ok (.texts words) ∧
        sep = ((textArgument? (callPre c t).2.memory.heap (c.args.map t.memory.valueOf) 0).getD "").toList ∧
        Text.Placed s.toList sep words ∧
        t'.memory.heap.elements? r = some es ∧ es.length = words.length ∧
        t.memory.shadow.nextIdentity ≤ k ∧
        ∀ i word, words[i]? = some word → ∃ e, es[i]? = some e ∧
          t'.memory.WordAt e ⟨k + i⟩ word (charsBetween (t.memory.charBits c.base)
            (Text.wordStart words sep.length i) (Text.wordStart words sep.length i + word.length)) := by
  rcases invoke_text_cases calls wraps with refused | ⟨h, e, t', failed, run⟩ |
    ⟨c', r, t', result, v, m₁, m₂, m, run, h⟩
  · exact .inl refused
  · -- the method does not fail
    cases failed
  · obtain ⟨n, rfl⟩ := StringMethod.run_split h.ran
    rw [h.opened] at unfolds ⊢
    obtain ⟨values, held, spell⟩ := h.spell_of_texts elements
    have array := h.array_of_texts.1
    obtain ⟨applied, es, held', length, at'⟩ := TextRule.words_of_split
      (c := ⟨c'.f, c'.base, c'.args, r⟩) (by rw [← h.args.length_eq]; exact few) elements
      (by rw [h.result_eq, array]) held (by rw [h.callType, wraps]) spell
    rw [h.charBits_base calls reachable.bounded, h.separatorLength_eq elements unfolds] at at'
    have rule := h.rule_of_precise calls precise (by rw [array]; rfl)
    rw [TextRule.call_apply, h.functionName,
      show TextRule.model? t.settings.policies StringMethod.split.name =
        some (TextRule.split t.settings.policies) from rfl] at rule
    dsimp only at rule
    rw [if_pos applied] at rule
    have result : r = .object m₁.heap.objects.size :=
      MemoryM.objectOf?_eq_some (by rw [Memory.objectOf?, h.result_eq, array]; rfl)
    have placed := Text.placed_take (joinWith_splitPieces s.toList
      (textArgument? m₁.heap (c.args.map t.memory.valueOf) 0)) n
    refine .inr ⟨c', r, t', _, _, es, m.shadow.nextIdentity, run, h.ran, rfl, placed, ?_, length, ?_, ?_⟩
    · rw [result, rule]
      exact held'
    · have minted := h.grows.minted
      rw [h.shadow] at minted
      exact Nat.le_trans h.undresses.minted minted
    · intro i word at_i
      obtain ⟨e, found, worded⟩ := at' i word at_i
      have inside := placed.length_word_le at_i
      rw [String.length_toList, ← TextRule.length_charBits_of_string calls.base] at inside
      rw [TextRule.bitsAt_eq inside] at worded
      refine ⟨e, found, ?_⟩
      rw [rule]
      exact worded

open Session

/-- An empty word between two separators has no characters, and the word behind it keeps its taint. -/
theorem words_exact_empty : ∃ c' r t' es k e,
    invoke (callText 7 "a,,b" [.string ","]) none (withWords "a,,b" "3") = (.ok (c', r), t') ∧
      t'.memory.heap.elements? r = some es ∧ es.length = 3 ∧ es[2]? = some e ∧
      t'.memory.WordAt e ⟨k + 2⟩ ['b'] [true] := by
  have unfolds (a : Value) (first : [Value.string ","][0]? = some a) :
      (callPre (callText 7 "a,,b" [.string ","]) (withWords "a,,b" "3")).2.memory.heap.Unfolds
        ((withWords "a,,b" "3").memory.valueOf a) := by
    obtain rfl : Value.string "," = a := Option.some.inj first
    exact Heap.unfolds_of_plain (by intro id object; cases object) rfl
  rcases words_exact (t := withWords "a,,b" "3") (c := callText 7 "a,,b" [.string ","]) (s := "a,,b")
      (reachable_run (.start _ ⟨#[]⟩) _) (by decide +kernel) (by decide +kernel) (by decide +kernel)
      ⟨by decide +kernel, rfl, by decide +kernel⟩ (by decide) unfolds with
    ⟨e, t', failed, -⟩ | ⟨c', r, t', words, sep, es, k, run, ran, separator, -, held, length, -, at'⟩
  · have succeeds : (invoke (callText 7 "a,,b" [.string ","]) none (withWords "a,,b" "3")).1.isOk = true := by
      decide +kernel
    rw [failed] at succeeds
    cases succeeds
  · have text (h : Heap) : textArgument? h [Value.string ","] 0 = some "," := textArgument?_of_string h rfl
    obtain rfl : sep = [','] := by
      rw [separator]
      exact congrArg (fun s : Option String => (s.getD "").toList) (text _)
    obtain rfl : words = [['a'], [], ['b']] := by
      have pieces : splitPieces "a,,b".toList (textArgument? _ [Value.string ","] 0) = words :=
        StringResult.texts.inj (Except.ok.inj ran)
      rw [← pieces, text]
      decide +kernel
    obtain ⟨e, found, worded⟩ := at' 2 ['b'] rfl
    refine ⟨c', r, t', es, k, e, run, held, length, found, ?_⟩
    have taint : charsBetween ((withWords "a,,b" "3").memory.charBits (spelled "a,,b"))
        (Text.wordStart [['a'], [], ['b']] 1 2) (Text.wordStart [['a'], [], ['b']] 1 2 + 1) = [true] := by
      decide +kernel
    rw [← taint]
    exact worded

end Tracker

end ShadowTaint
