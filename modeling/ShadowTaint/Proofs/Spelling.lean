import ShadowTaint.Proofs.Agreement
/-!
# Which entries have maps

The map of an entry has a slot for each character, so an entry should have one only if it was stored for
a string. What an entry was stored for is not recorded; its key is an identity, and a handle with that
identity stands for a string. As long as no identity stands for strings and for other literals, the check
of the ghost functions, which looks into values that have properties of their own, and the check of the
sinks, which looks into all of them, come to the same.

## Main definitions

- `Memory.Spelled`: entries have maps only under identities for which a handle stands for a string.
- `Memory.Unmixed`: an identity that stands for strings stands for nothing else.
- `TextRule.Miscuts`: a text is cut into words of which one is no string.

## Main statements

- `Memory.taintAny_eq_isTainted`: then the two checks agree about every value.
- `Hook.spelled`: every hook that does not cut a text wrongly keeps maps to strings.
-/

namespace ShadowTaint

open Memory Tracker Policy

/-- Whether a literal is a string. -/
def Literal.isText : Literal → Bool
  | .string _ => true
  | _ => false

theorem Literal.isText_iff {raw : Literal} : raw.isText = true ↔ ∃ text, raw = .string text := by
  cases raw <;> simp [isText]

namespace Memory

variable {m m' : Memory} {W W' : Array (Identity × Literal)} {v : Value} {key : TaintKey}
  {bit tainted : Bool} {chars : Option CharMap}

/-- The key is an identity for which one of the handles stands for a string. -/
def Spells (handles : Array (Identity × Literal)) (key : TaintKey) : Prop :=
  ∃ id raw, key = .identity id ∧ (id, raw) ∈ handles ∧ raw.isText = true

/-- Entries have maps only under identities for which one of the handles stands for a string. -/
def Spelled (m : Memory) (handles : Array (Identity × Literal)) : Prop :=
  ∀ key e, m.shadow.entries.get? key = some e → e.chars.isSome = true → Spells handles key

/-- An identity that stands for a string stands for strings only. -/
def Unmixed (m : Memory) : Prop :=
  ∀ id raw raw', (id, raw) ∈ m.shadow.wraps → (id, raw') ∈ m.shadow.wraps → raw.isText = raw'.isText

theorem Spells.mono (h : Spells W key) (sub : ∀ p ∈ W, p ∈ W') : Spells W' key := by
  obtain ⟨id, raw, same, handle, text⟩ := h
  exact ⟨id, raw, same, sub _ handle, text⟩

/-- What a string is tracked under is an identity that stands for it. -/
theorem spells_of_keyOf (sub : ∀ p ∈ m.shadow.wraps, p ∈ W) (tracked : m.shadow.keyOf v = some key)
    (text : (m.stringOf? v).isSome = true) : Spells W key := by
  cases key with
  | identity id =>
    obtain ⟨raw, handle, value⟩ := handle_of_keyOf tracked
    refine ⟨id, raw, rfl, sub _ handle, ?_⟩
    rw [stringOf?, value] at text
    cases raw <;> first | rfl | cases text
  | object id =>
    -- an object is no string
    rw [ShadowState.keyOf] at tracked
    rcases known : m.shadow.lookup? v with _ | ⟨other, raw⟩ <;> rw [known] at tracked
    · cases v with
      | object id => cases text
      | literal l => cases tracked
      | shadow handle identity raw => cases tracked
    · cases tracked

namespace Spelled

theorem mono (h : m.Spelled W) (sub : ∀ p ∈ W, p ∈ W') : m.Spelled W' :=
  fun key e found chars => (h key e found chars).mono sub

theorem of_entries (h : m.Spelled W) (entries : m'.shadow.entries = m.shadow.entries) :
    m'.Spelled W := by
  intro key e found
  rw [entries] at found
  exact h key e found

theorem writes (h : m.Spelled W) (writes : m.Writes m' v bit chars)
    (spells : ∀ key, m.shadow.keyOf v = some key → chars.isSome = true → Spells W key) :
    m'.Spelled W := by
  obtain ⟨path, entries⟩ := writes.stored
  intro key e found mapped
  rw [entries] at found
  split at found
  · rename_i tracked
    cases found
    exact spells key tracked mapped
  · exact h key e found mapped

/-- A map is made for strings only. -/
theorem charMap? (sub : ∀ p ∈ m.shadow.wraps, p ∈ W) (tracked : m.shadow.keyOf v = some key)
    (mapped : (m.charMap? v tainted).isSome = true) : Spells W key := by
  rw [Memory.charMap?, Option.isSome_map] at mapped
  exact spells_of_keyOf sub tracked mapped

/-- The map of a value is the one that is recorded, or one that was made for it. -/
theorem entryOf (h : m.Spelled W) (sub : ∀ p ∈ m.shadow.wraps, p ∈ W)
    (tracked : m.shadow.keyOf v = some key) (mapped : (m.entryOf v).chars.isSome = true) :
    Spells W key := by
  rw [Memory.entryOf, stored?_of_key tracked] at mapped
  rcases found : m.shadow.entries.get? key with _ | e <;> rw [found] at mapped
  · exact charMap? sub tracked mapped
  · exact h key e found mapped

theorem tallies (h : m.Spelled W) (tallies : m.Tallies m') (sub : ∀ p ∈ m.shadow.wraps, p ∈ W) :
    m'.Spelled W := by
  intro key e found mapped
  rcases tallies.entries key e found with old | ⟨tracked, chars⟩ | ⟨tracked, fits, -, -⟩
  · exact h key e old mapped
  · rw [chars] at mapped
    exact charMap? sub tracked mapped
  · refine spells_of_keyOf sub tracked ?_
    rw [← Option.isSome_map, fits]
    rfl

theorem retells (h : m.Spelled W) (retells : m.Retells m') (sub : ∀ p ∈ m.shadow.wraps, p ∈ W) :
    m'.Spelled W := by
  intro key e' found mapped
  rcases retells.entries key e' found with ⟨e, found, -, chars⟩ | ⟨v, tracked, -, chars⟩
  · rw [chars] at mapped
    exact h key e found mapped
  · rw [chars] at mapped
    exact charMap? sub tracked mapped

theorem setPropertyTaint (h : m.Spelled W) (sub : ∀ p ∈ m.shadow.wraps, p ∈ W) (v : Value) (key : String)
    (tainted : Bool) : (CheckedM.setPropertyTaint v key tainted m).2.Spelled W := by
  rcases MemoryM.setPropertyTaint_cases v key tainted m with
    ⟨e, m', run, used⟩ | ⟨text, map, m', value, -, run, writes⟩
  · rw [run]
    exact h.of_entries used.quiet.entries
  · rw [run]
    refine h.writes writes fun key tracked _ => spells_of_keyOf sub tracked ?_
    rw [value]
    rfl

end Spelled

end Memory

namespace TextRule

variable {m : Memory} {W : Array (Identity × Literal)} (base : List Bool) (path : Provenance.Node)

/-- Words that get shadows stay strings, also those that were given out with handles which are not
known yet. -/
theorem stringOf?_wrapWord (start : Nat) {word : Value} (text : (m.stringOf? word).isSome = true)
    {v : Value} (other : (m.stringOf? v).isSome = true) :
    ((wrapWord base path start word m).2.stringOf? v).isSome = true := by
  have writes := writes_wrapWord base path start word m
  rw [stringOf?_of_wraps writes.wraps]
  have bare : (m.valueOf word).raw = m.valueOf word := m.shadow.raw_valueOf word
  obtain ⟨s, value⟩ := Option.isSome_iff_exists.mp text
  rw [Value.eq_string bare value]
  rcases skips : m.shadow.frame.callType.skipsWrapping
  · obtain ⟨-, wraps, -⟩ := MemoryM.wrapFresh_literal skips (.string s)
    cases v with
    | literal l => exact other
    | object id => exact other
    | shadow handle identity raw =>
      -- the handle is known, or it is the new one, or it is none still
      rw [stringOf?, valueOf, ShadowState.valueOf, ShadowState.lookup?] at other ⊢
      rw [wraps, Array.getElem?_push]
      by_cases new : handle.index = m.shadow.wraps.size
      · rw [if_pos new]
        rfl
      · rwa [if_neg new]
  · rwa [show (MemoryM.wrapFresh (.string s) m).2 = { m with shadow := m.shadow.mint.2 } from
      congrArg Prod.snd (MemoryM.shadow_of_skips (m := { m with shadow := m.shadow.mint.2 }) skips _ _)]

theorem spelled_wrapWord (h : m.Spelled W) (start : Nat) {word : Value}
    (sub : ∀ p ∈ (wrapWord base path start word m).2.shadow.wraps, p ∈ W)
    (text : (m.stringOf? word).isSome = true) : (wrapWord base path start word m).2.Spelled W := by
  have writes := writes_wrapWord base path start word m
  rw [writes.wraps] at sub
  refine (h.of_entries (MemoryM.quiet_wrapFresh _ m).entries).writes writes fun key tracked _ =>
    spells_of_keyOf sub tracked ?_
  have bare : (m.valueOf word).raw = m.valueOf word := m.shadow.raw_valueOf word
  rwa [stringOf?, MemoryM.valueOf_wrapFresh bare]

theorem spelled_wrapWords (separator : Nat) (words : List Value) {start : Nat} (h : m.Spelled W)
    (sub : ∀ p ∈ (wrapWords base path separator start words m).2.shadow.wraps, p ∈ W)
    (texts : ∀ word ∈ words, (m.stringOf? word).isSome = true) :
    (wrapWords base path separator start words m).2.Spelled W := by
  induction words generalizing m start with
  | nil => exact h
  | cons word rest ih =>
    rw [wrapWords_cons] at sub ⊢
    have text := texts word List.mem_cons_self
    refine ih (spelled_wrapWord base path h start (fun p mem => sub p ?_) text) sub fun other mem =>
      stringOf?_wrapWord base path start text (texts other (List.mem_cons_of_mem _ mem))
    exact (adds_wrapWords base path separator _ rest _).known p mem

/-- A text is cut into words that are tracked one by one, and one of them is no string. -/
def Miscuts (levels : Levels) (c : NativeCall) (m : Memory) : Prop :=
  levels.precision .array = .precise ∧ ∃ words, m.heap.elements? (m.valueOf c.result) = some words ∧
    ∃ word ∈ words, m.stringOf? word = none

theorem spelled_split (levels : Levels) (c : NativeCall) (h : m.Spelled W)
    (sub : ∀ p ∈ (split levels c m).2.shadow.wraps, p ∈ W) (cuts : ¬ Miscuts levels c m) :
    (split levels c m).2.Spelled W := by
  have setBit {m' : Memory} (h : m'.Spelled W) (sub : ∀ p ∈ m'.shadow.wraps, p ∈ W) (v : Value) :
      (TextRule.setBit v m').2.Spelled W :=
    h.writes (writes_setBit v m') fun _ tracked mapped => h.entryOf sub tracked mapped
  rw [split_apply] at sub ⊢
  split at sub
  · rename_i many
    rwa [if_pos many]
  rename_i few
  rw [if_neg few]
  cases array : m.heap.elements? (m.valueOf c.result) with
  | none => exact h
  | some words =>
    rw [array] at sub
    dsimp only at sub ⊢
    by_cases precise : levels.precision .array = .precise
    · rw [if_pos precise] at sub ⊢
      dsimp only at sub ⊢
      have wraps : ∀ p ∈ (splitWords c words m).2.shadow.wraps, p ∈ W := by
        split at sub
        · rwa [(writes_setBit c.result (afterWords c words m)).wraps] at sub
        · exact sub
      have used : (MemoryM.useNodes 1 m).2.Spelled W := h.of_entries rfl
      have done : (splitWords c words m).2.Spelled W := by
        refine spelled_wrapWords _ _ _ words used wraps fun word mem => ?_
        by_contra plain
        exact cuts ⟨precise, words, array, word, mem, Option.not_isSome_iff_eq_none.mp plain⟩
      have after : (afterWords c words m).Spelled W := done.of_entries rfl
      split
      · exact setBit after wraps _
      · exact after
    · rw [if_neg precise] at sub ⊢
      dsimp only at sub ⊢
      split at sub
      · rename_i part
        rw [(writes_setBit c.result m).wraps] at sub
        rw [if_pos part]
        exact setBit h sub _
      · rename_i part
        rwa [if_neg part]

end TextRule

/-- The step cuts a text into words of which one is no string. -/
inductive Deed.Miscuts (levels : Levels) (m : Memory) : Deed → Prop where
  | words {c : NativeCall} (named : m.functionName c.f = "split")
      (cuts : TextRule.Miscuts levels c m) : Miscuts levels m (.native .string c)

/-- Steps that cut no text wrongly store maps for strings only. -/
theorem Deed.spelled {m : Memory} {W : Array (Identity × Literal)} {levels : Levels} (d : Deed)
    (h : m.Spelled W) (sub : ∀ p ∈ (d.run levels m).2.shadow.wraps, p ∈ W)
    (cuts : ¬ d.Miscuts levels m) : (d.run levels m).2.Spelled W := by
  rcases d.run_cases levels m with tallies | departs
  · exact h.tallies tallies (tallies.wraps ▸ sub)
  · generalize (d.run levels m).2 = m' at departs sub ⊢
    cases departs with
    | @known policy ops e objects stored writes =>
      refine h.writes writes fun key tracked mapped => ?_
      rw [stored?_of_key tracked] at stored
      exact h key e stored mapped
    | unknown objects fresh writes | unary writes =>
      exact h.writes writes fun key tracked mapped =>
        Spelled.charMap? (writes.wraps ▸ sub) tracked mapped
    | code named single writes => exact h.writes writes fun _ _ mapped => nomatch mapped
    | container writes | noted writes =>
      exact h.writes writes fun key tracked mapped => h.entryOf (writes.wraps ▸ sub) tracked mapped
    | words named applies run =>
      subst run
      exact TextRule.spelled_split levels _ h sub fun cut => cuts (.words named cut)

theorem Memory.backed_spelled : Backed Spelled :=
  ⟨Spelled.mono, Spelled.of_entries, Spelled.tallies, Spelled.retells, Spelled.setPropertyTaint⟩

/-- The hook cuts a text into words of which one is no string. -/
def Hook.Miscuts (h : Hook) (t : Tracker) : Prop :=
  ∃ d m, h.Does t d m ∧ d.Miscuts t.settings.policies m

/-- Every hook that does not cut a text wrongly stores maps for strings only. -/
theorem Hook.spelled (h : Hook) {t : Tracker} (before : t.memory.Spelled t.memory.shadow.wraps)
    (cuts : ¬ h.Miscuts t) : (h.run t).2.memory.Spelled (h.run t).2.memory.shadow.wraps :=
  h.backed backed_spelled (fun d m does _ sub before => d.spelled before sub
    fun miscuts => cuts ⟨d, m, does, miscuts⟩) before

namespace Memory

variable {m : Memory}

/-- A map is recorded for a value only if the value is a string. -/
theorem text_of_chars (spelled : m.Spelled m.shadow.wraps) (unmixed : m.Unmixed) {v : Value}
    {map : CharMap} (recorded : (m.stored? v).bind (·.chars) = some map) :
    ∃ raw : Literal, m.valueOf v = .literal raw ∧ raw.isText = true := by
  obtain ⟨e, stored, chars⟩ := Option.bind_eq_some_iff.mp recorded
  obtain ⟨key, tracked, found⟩ := Option.bind_eq_some_iff.mp stored
  obtain ⟨id, text, rfl, handle, isText⟩ := spelled key e found (by rw [chars]; rfl)
  obtain ⟨raw, own, value⟩ := handle_of_keyOf tracked
  exact ⟨raw, value, (unmixed id raw text own handle).trans isText⟩

/-- Nothing is tainted inside a value that has no properties of its own. -/
theorem anyProps_of_bare (spelled : m.Spelled m.shadow.wraps) (unmixed : m.Unmixed) {v : Value}
    (bare : m.heap.hasOwnProperties (m.valueOf v) = false) : m.anyProps v = false := by
  rw [anyProps]
  cases recorded : (m.stored? v).bind (·.chars) with
  | some map =>
    obtain ⟨raw, value, text⟩ := text_of_chars spelled unmixed recorded
    obtain ⟨s, rfl⟩ := Literal.isText_iff.mp text
    rw [value] at bare
    cases bare
  | none =>
    dsimp only
    rw [members, objectOf?]
    cases value : m.valueOf v with
    | literal l => rfl
    | shadow handle identity l => rfl
    | object id =>
      rw [value] at bare
      dsimp only [Heap.hasOwnProperties, Value.raw, Value.object?, Heap.dataProperties] at bare ⊢
      split at bare
      · cases bare
      · cases bare
      · have empty : (m.heap.get id).properties.entries = [] := by
          simpa [Table.isEmpty] using bare
        rw [empty]
        split <;> first | rfl | simp_all

/-- As long as entries have maps only for strings, and no identity stands for strings and for other
literals, the check of the ghost functions and that of the sinks agree about every value. -/
theorem taintAny_eq_isTainted (spelled : m.Spelled m.shadow.wraps) (unmixed : m.Unmixed) (v : Value) :
    m.taintAny v = m.isTainted v := by
  rw [taintAny, isTainted]
  cases own : m.heap.hasOwnProperties (m.valueOf v) with
  | true => rw [Bool.true_and]
  | false => rw [anyProps_of_bare spelled unmixed own, Bool.and_false]

end Memory

end ShadowTaint
