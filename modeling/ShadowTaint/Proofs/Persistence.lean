import Mathlib.Data.List.TakeWhile
import ShadowTaint.Proofs.Lasting
import ShadowTaint.Proofs.Sessions
import ShadowTaint.Proofs.Texts
/-!
# What becomes of recorded taint

Three ghost functions clear taint. Any other hook leaves a tainted entry tainted, unless it records
anew, and without regard to what was recorded before, for a value that is tracked already. The rules of
objects look at the old entry, or they record taint only. The other rules take what they record for the
first thing that is known of the value, which it is not where a property is read through a string, where
a native function returns what it was given, and where an operator is not matched.

## Main definitions

- `Memory.Holds`: taint is recorded under a key.
- `Deed.Forgets`: a step records no taint for a value that is tracked already.
- `Hook.Forgets`: a hook calls a function that clears taint, or it takes such a step.

## Main statements

- `Deed.remembers`: a step that does not forget keeps what is recorded.
- `Hook.remembers`, `Session.taint_persists`: so does a hook, and a whole run.
- `Session.taint_forgotten`: a tainted object loses its taint when it is read through a string.
-/

namespace ShadowTaint

open Memory Tracker

/-- Taint is recorded under the key. -/
def Memory.Holds (key : TaintKey) (m : Memory) : Prop :=
  ∃ e, m.shadow.entries.get? key = some e ∧ e.isTainted = true

/-- The step records no taint for a value that is tracked under the key already. -/
inductive Deed.Forgets (levels : Levels) (m : Memory) (key : TaintKey) : Deed → Prop where
  /-- A property is read through a string, at an untainted character. -/
  | character {ops : Operands} {map : CharMap} (chars : (m.entryOf ops.base).chars = some map)
      (clean : (m.entryOf ops.base).propertyTaint (m.keyText ops.offset) = false)
      (tracked : m.shadow.keyOf ops.value = some key) : Forgets levels m key (.read .string ops)
  /-- The result of a binary operator has an identity that was left behind for it. -/
  | binary {policy : Policy} {op : String} {ops : Operands}
      (clean : policy ≠ .string → (policy.objectGrain levels).isTainted m ops.base = false ∧
        (policy.objectGrain levels).isTainted m ops.offset = false)
      (tracked : m.shadow.keyOf ops.value = some key) : Forgets levels m key (.binary policy op ops)
  /-- The result of a unary operator has an identity that was left behind for it. -/
  | unary {policy : Policy} {operand result : Value}
      (clean : (policy.objectGrain levels).isTainted m operand = false)
      (tracked : m.shadow.keyOf result = some key) :
      Forgets levels m key (.unary policy operand result)
  /-- A function of strings returns a value that is tracked already. -/
  | text {c : NativeCall} (tracked : m.shadow.keyOf c.result = some key) :
      Forgets levels m key (.native .string c)
  /-- A function of strings returns an array with an object in it. -/
  | word {c : NativeCall} {words : List Value} {id : ObjectId}
      (named : m.functionName c.f = "split") (precise : levels.precision .array = .precise)
      (array : m.heap.elements? (m.valueOf c.result) = some words) (mem : .object id ∈ words)
      (tracked : key = .object id) : Forgets levels m key (.native .string c)
  /-- An array is joined to a text that is tracked already. -/
  | joined {c : NativeCall} (named : m.functionName c.f = "join")
      (clean : true ∉ ArrayRule.joinedBits m c) (tracked : m.shadow.keyOf c.result = some key) :
      Forgets levels m key (.native (.container .array .precise) c)
  /-- An array is mapped to one with an element that was tainted without a history. -/
  | mapped {c : NativeCall} {output : Value} (named : m.functionName c.f = "map")
      (mem : output ∈ ArrayRule.elements m c.result) (whole : m.taintBit c.base = false)
      (own : (m.entryOf output).path.hasParents = false)
      (tracked : m.shadow.keyOf output = some key) :
      Forgets levels m key (.native (.container .array .precise) c)
  /-- An array of untainted elements is reduced to a value that was tainted without a history. -/
  | reduced {c : NativeCall} (named : m.functionName c.f ∈ ["reduce", "reduceRight"])
      (own : (m.entryOf c.result).path.hasParents = false) (whole : m.taintBit c.base = false)
      (clean : ∀ v ∈ ArrayRule.elements m c.base, m.isTainted v = false)
      (tracked : m.shadow.keyOf c.result = some key) :
      Forgets levels m key (.native (.container .array .precise) c)
  /-- A value of which single characters are tainted is taken out of an untainted container. -/
  | taken {kind : Container} {c : NativeCall}
      (named : (kind, m.functionName c.f) ∈ [(.map, "get"), (.set, "values")])
      (bit : m.taintBit c.result = false) (whole : m.taintBit c.base = false)
      (clean : m.anyProps c.base = false) (tracked : m.shadow.keyOf c.result = some key) :
      Forgets levels m key (.native (.container kind .imprecise) c)

namespace Memory.Holds

variable {m m' : Memory} {key : TaintKey} {v : Value}

theorem quiet (h : m.Holds key) (quiet : m.Quiet m') : m'.Holds key := by
  obtain ⟨e, found, tainted⟩ := h
  exact ⟨e, by rw [quiet.entries]; exact found, tainted⟩

theorem used (h : m.Holds key) (used : Policy.NodesUsed m m') : m'.Holds key := h.quiet used.quiet

theorem stored (h : m.Holds key) (own : m.shadow.keyOf v = some key) :
    ∃ e, m.stored? v = some e ∧ e.isTainted = true := by
  obtain ⟨e, found, tainted⟩ := h
  refine ⟨e, ?_, tainted⟩
  rw [Memory.stored?, ShadowState.stored?, own]
  exact found

theorem ownTaint (h : m.Holds key) (own : m.shadow.keyOf v = some key) : m.ownTaint v = true := by
  obtain ⟨e, stored, tainted⟩ := h.stored own
  rw [ownTaint_of_stored stored, tainted]

/-- An entry that is stored for the key, if it is tainted itself. -/
theorem store (h : m.Holds key) {e : TaintEntry}
    (kept : m.shadow.keyOf v = some key → e.isTainted = true) : (MemoryM.store v e m).2.Holds key := by
  obtain ⟨e', found, tainted⟩ := h
  show ∃ e', (m.shadow.store v e).entries.get? key = some e' ∧ _
  rw [ShadowState.get?_store]
  by_cases own : m.shadow.keyOf v = some key
  · rw [if_pos own]
    exact ⟨e, rfl, kept own⟩
  · rw [if_neg own]
    exact ⟨e', found, tainted⟩

theorem records (h : m.Holds key) {tainted : Bool} {label : String} {sources : List Value}
    (recorded : m.Records m' v tainted label sources)
    (kept : m.shadow.keyOf v = some key → tainted = true) : m'.Holds key := by
  obtain ⟨e, isTainted, -, entries⟩ := recorded.get?
  obtain ⟨e', found, tainted'⟩ := h
  rw [Memory.Holds, entries]
  by_cases own : m.shadow.keyOf v = some key
  · rw [if_pos own]
    exact ⟨e, rfl, isTainted.trans (kept own)⟩
  · rw [if_neg own]
    exact ⟨e', found, tainted'⟩

theorem derives (h : m.Holds key) {run : Bool × Memory} (derived : m.Derives run v)
    (other : m.shadow.keyOf v ≠ some key) : run.2.Holds key := by
  cases derived with
  | nothing used => exact h.used used
  | entry _ recorded _ => exact h.records recorded fun own => absurd own other

section Objects

theorem getField (h : m.Holds key) (grain : Grain) (ops : Operands) :
    (ObjectRule.getField grain ops m).2.Holds key := by
  rcases ObjectRule.records_getField grain ops m with ⟨known, stored, recorded⟩ | ⟨fresh, recorded⟩
  · refine h.records recorded fun own => ?_
    obtain ⟨e, stored', tainted⟩ := h.stored own
    obtain rfl : known = e := Option.some.inj (stored.symm.trans stored')
    rcases bit : known.bit
    · rw [TaintEntry.isTainted, bit, Bool.false_or] at tainted
      rw [tainted, Bool.or_true]
    · have counts := grain.isTainted_of_bit (m := m) (v := ops.value) (by
        rw [Memory.taintBit, stored]
        exact bit)
      rw [counts, Bool.or_true, Bool.true_or]
  · refine h.records recorded fun own => ?_
    obtain ⟨e, stored, -⟩ := h.stored own
    rw [fresh] at stored
    cases stored

theorem putField (h : m.Holds key) (policy : Policy) (levels : Levels) (ops : Operands) :
    (policy.putField levels ops m).2.Holds key := by
  have object (grain : Grain) : (ObjectRule.putField grain ops m).2.Holds key := by
    rcases ObjectRule.records_putField grain ops m with
      ⟨f, m', -, run, used⟩ | ⟨-, run⟩ | ⟨m', -, -, run, recorded⟩
    · rw [run]
      exact h.used used
    · rw [run]
      exact h
    · rw [run]
      refine h.records recorded fun own => ?_
      rw [isTainted_of_ownTaint (h.ownTaint own), Bool.true_or]
  cases policy with
  | global =>
    show (GlobalRule.putField ops m).2.Holds key
    unfold GlobalRule.putField
    rw [get_bind_apply]
    split
    · exact h.used ((Policy.NodesUsed.refl m).more 1)
    · exact h
  | _ => exact object _

/-- The rule of objects for native functions records nothing but taint. -/
theorem call (h : m.Holds key) (receiver : Option Grain) (c : NativeCall) :
    (ObjectRule.call receiver c m).2.Holds key := by
  have rule := ObjectRule.records_call receiver c m
  split at rule
  · exact h.records rule fun _ => rfl
  · split at rule
    · exact h.records rule fun _ => rfl
    · exact h.used rule

end Objects

section Texts

theorem setBit (h : m.Holds key) (v : Value) : (TextRule.setBit v m).2.Holds key :=
  (h.used ((Policy.NodesUsed.refl m).more 1)).store fun _ => rfl

theorem wrapWord (h : m.Holds key) (bounded : m.shadow.Bounded) (base : List Bool)
    (path : Provenance.Node) (start : Nat) {word : Value}
    (other : ∀ id, word = .object id → key ≠ .object id) :
    (TextRule.wrapWord base path start word m).2.Holds key := by
  obtain ⟨element, m₁, run⟩ : ∃ element m₁, MemoryM.wrapFresh (m.valueOf word) m = (element, m₁) :=
    ⟨_, _, rfl⟩
  have held : m₁.Holds key := h.quiet ((MemoryM.quiet_wrapFresh _).of_apply run)
  unfold TextRule.wrapWord
  rw [bind_apply, get_apply]
  dsimp only
  rw [bind_apply, run]
  refine (held.used ((Policy.NodesUsed.refl m₁).more 2)).store fun own => ?_
  -- the word is recorded under a new identity, or it is another object
  rcases TextRule.keyOf_wrapFresh (m.shadow.raw_valueOf word) run with untracked | fresh | ⟨id, object, same⟩
  · cases untracked.symm.trans own
  · cases fresh.symm.trans own
    obtain ⟨e, found, -⟩ := h
    have mentioned : m.shadow.Mentions ⟨m.shadow.nextIdentity⟩ := .inl (by
      rw [Table.contains, found]
      rfl)
    exact absurd (bounded _ mentioned) (Nat.lt_irrefl _)
  · cases same.symm.trans own
    have itself : m.objectOf? word = some id := by
      rw [objectOf?, Memory.valueOf, object]
      rfl
    exact absurd rfl (other id (MemoryM.objectOf?_eq_some itself))

theorem wrapWords (h : m.Holds key) (bounded : m.shadow.Bounded) (base : List Bool)
    (path : Provenance.Node) (separator start : Nat) {words : List Value}
    (other : ∀ id, .object id ∈ words → key ≠ .object id) :
    (TextRule.wrapWords base path separator start words m).2.Holds key := by
  induction words generalizing m start with
  | nil => exact h
  | cons word rest ih =>
    rw [TextRule.wrapWords_cons]
    have spreads : Within Spreads (TextRule.wrapWord base path start word) :=
      .bind .get fun _ => .bind (MemoryM.spreads_wrapFresh _) fun _ =>
        .bind (MemoryM.marks_record _ _ _ _ _).spreads fun _ => .pure _
    refine ih (h.wrapWord bounded base path start fun id same => other id ?_)
      ((spreads m).bounded bounded) _ fun id mem => other id (List.mem_cons_of_mem _ mem)
    rw [same]
    exact List.mem_cons_self

theorem split (h : m.Holds key) (bounded : m.shadow.Bounded) (levels : Levels) (c : NativeCall)
    (other : ∀ words, levels.precision .array = .precise →
      m.heap.elements? (m.valueOf c.result) = some words →
      ∀ id, .object id ∈ words → key ≠ .object id) : (TextRule.split levels c m).2.Holds key := by
  rw [TextRule.split_apply]
  split
  · exact h
  · rcases array : m.heap.elements? (m.valueOf c.result) with _ | words
    · exact h
    · dsimp only
      split
      · rename_i precise
        have used := (Policy.NodesUsed.refl m).more 1
        have held : (TextRule.afterWords c words m).Holds key :=
          (((h.used used).wrapWords (used.marks.spreads.bounded bounded) _ _ _ _
            (other words precise array)).quiet ⟨rfl, Nat.le_refl _⟩)
        dsimp only
        split
        · exact held.setBit _
        · exact held
      · dsimp only
        split
        · exact h.setBit _
        · exact h

/-- The rule of strings, for a result that is not tracked under the key. -/
theorem textCall (h : m.Holds key) (bounded : m.shadow.Bounded) (levels : Levels) (c : NativeCall)
    (tracked : m.shadow.keyOf c.result ≠ some key)
    (words : ∀ words, m.functionName c.f = "split" → levels.precision .array = .precise →
      m.heap.elements? (m.valueOf c.result) = some words →
      ∀ id, .object id ∈ words → key ≠ .object id) : (TextRule.call levels c m).2.Holds key := by
  rcases TextRule.call_outcomes levels c m with ⟨named, run⟩ | derived | ⟨m₁, used, -, run⟩
  · rw [run]
    exact h.split bounded levels c fun ws => words ws named
  · exact h.derives derived tracked
  · rw [run]
    obtain ⟨heap, -, second⟩ := TextRule.unmodelled_cases levels c m₁
    have held : m₁.Holds key := h.used used
    have beside : Memory.Holds key { m₁ with heap } := held
    have untracked : m₁.shadow.keyOf c.result ≠ some key := by
      rwa [keyOf_of_wraps used.marks.wraps]
    rcases second with left | ⟨m₂, left, run₂⟩ | ⟨output, label, -, recorded⟩
    · exact beside.used left
    · rw [run₂]
      exact (beside.used left).call _ c
    · exact beside.records recorded fun own => absurd own untracked

end Texts

section Containers

theorem join (h : m.Holds key) (c : NativeCall)
    (kept : m.shadow.keyOf c.result = some key → true ∈ ArrayRule.joinedBits m c) :
    (ArrayRule.join c m).2.Holds key := by
  have rule := ArrayRule.records_join c m
  split at rule
  · exact h.records rule.2 fun own => List.any_eq_true.mpr ⟨true, kept own, rfl⟩
  · exact h.used rule.2

/-- What is tainted and has a history is not recorded anew by the rule of mapping functions. -/
theorem mapElements_history {whole : Bool} {e : TaintEntry} (history : e.path.hasParents = true)
    (found : m.shadow.entries.get? key = some e) (pairs : List (Value × Value)) :
    (pairs.forM (ArrayRule.mapElement whole) m).2.shadow.entries.get? key = some e := by
  induction pairs generalizing m with
  | nil => exact found
  | cons pair rest ih =>
    refine ih (m := (ArrayRule.mapElement whole pair m).2) ?_
    have rule := ArrayRule.records_mapElement whole pair m
    split at rule
    · rw [rule.quiet.entries]
      exact found
    · rename_i parentless
      obtain ⟨_, -, -, entries⟩ := rule.get?
      rw [entries, if_neg, found]
      intro own
      have stored : m.stored? pair.2 = some e := by
        rw [Memory.stored?, ShadowState.stored?, own]
        exact found
      rw [Memory.entryOf, stored] at parentless
      exact parentless history

theorem mapElements (h : m.Holds key) {whole : Bool} {pairs : List (Value × Value)}
    (kept : ∀ pair ∈ pairs, m.shadow.keyOf pair.2 = some key → whole = true) :
    (pairs.forM (ArrayRule.mapElement whole) m).2.Holds key := by
  induction pairs generalizing m with
  | nil => exact h
  | cons pair rest ih =>
    have rule := ArrayRule.records_mapElement whole pair m
    have marks : m.Marks (ArrayRule.mapElement whole pair m).2 := by
      split at rule
      · exact rule.marks
      · exact rule.marks
    refine ih (m := (ArrayRule.mapElement whole pair m).2) ?_ fun p mem own => ?_
    · split at rule
      · exact h.used rule
      · refine h.records rule fun own => ?_
        rw [kept pair List.mem_cons_self own, Bool.true_or]
    · rw [keyOf_of_wraps marks.wraps] at own
      exact kept p (List.mem_cons_of_mem _ mem) own

theorem mapped (h : m.Holds key) (c : NativeCall)
    (kept : ∀ output ∈ ArrayRule.elements m c.result, m.shadow.keyOf output = some key →
      m.taintBit c.base = true ∨ (m.entryOf output).path.hasParents = true) :
    (ArrayRule.mapped c m).2.Holds key := by
  rw [ArrayRule.mapped_apply]
  split
  · obtain ⟨e, found, tainted⟩ := h
    rcases history : e.path.hasParents
    · refine mapElements ⟨e, found, tainted⟩ fun pair mem own => ?_
      rcases kept pair.2 (List.of_mem_zip mem).2 own with whole | parents
      · exact whole
      · have stored : m.stored? pair.2 = some e := by
          rw [Memory.stored?, ShadowState.stored?, own]
          exact found
        rw [Memory.entryOf, stored] at parents
        exact absurd (history.symm.trans parents) Bool.false_ne_true
    · exact ⟨e, mapElements_history history found _, tainted⟩
  · exact h

theorem reduced (h : m.Holds key) (c : NativeCall)
    (kept : m.shadow.keyOf c.result = some key → (m.entryOf c.result).path.hasParents = false →
      m.taintBit c.base = true ∨ ∃ v ∈ ArrayRule.elements m c.base, m.isTainted v = true) :
    (ArrayRule.reduced c m).2.Holds key := by
  have rule := (ArrayRule.records_reduced c m).2
  split at rule
  · rwa [rule]
  · rename_i neither
    refine h.records rule fun own => ?_
    have history : (m.entryOf c.result).path.hasParents = false := by
      rw [Bool.or_eq_true, not_or, Bool.not_eq_true] at neither
      exact neither.1
    rcases kept own history with whole | ⟨v, mem, tainted⟩
    · rw [whole, Bool.true_or]
    · rcases whole : m.taintBit c.base
      · rw [Bool.false_or, ArrayRule.fromFirstTainted, if_neg Bool.false_ne_true]
        -- the tainted element is not dropped
        have kept : (ArrayRule.elements m c.base).dropWhile (fun v => !m.isTainted v) ≠ [] := by
          rw [Ne, List.dropWhile_eq_nil_iff]
          intro all
          have clean := all v mem
          rw [tainted] at clean
          cases clean
        simpa using kept
      · rfl

theorem taintRead (h : m.Holds key) (label : String) (c : NativeCall)
    (kept : m.shadow.keyOf c.result = some key →
      (m.taintBit c.result || m.taintBit c.base || m.anyProps c.base) = true) :
    (ContainerRule.taintRead label c m).2.Holds key :=
  h.records (ContainerRule.records_taintRead label c m) kept

theorem taintReceiver (h : m.Holds key) (label : String) (c : NativeCall) :
    (ContainerRule.taintReceiver label c m).2.Holds key := by
  have rule := ContainerRule.records_taintReceiver label c m
  split at rule
  · exact h.records rule fun _ => rfl
  · rwa [rule]

theorem push (h : m.Holds key) (c : NativeCall) : (ArrayRule.push c m).2.Holds key := by
  have rule := (ArrayRule.records_push c m).2
  split at rule
  · exact h.records rule fun _ => rfl
  · rwa [rule]

section Models

variable {levels : Levels} {c : NativeCall} {name : String} (named : m.functionName c.f = name)

include named

theorem arrayModel (h : m.Holds key) {grain : Grain} {model : NativeCall → MemoryM Bool}
    (found : ArrayRule.model? grain name = some model)
    (spared : ¬ Deed.Forgets levels m key (.native (.container .array grain) c)) :
    (model c m).2.Holds key := by
  have reduces (named : m.functionName c.f ∈ ["reduce", "reduceRight"]) (precise : grain = .precise) :
      (ArrayRule.reduced c m).2.Holds key := by
    subst precise
    refine h.reduced c fun own history => ?_
    by_contra clean
    rw [not_or, Bool.not_eq_true] at clean
    refine spared (.reduced named history clean.1 (fun v mem => ?_) own)
    rcases tainted : m.isTainted v
    · rfl
    · exact absurd ⟨v, mem, tainted⟩ clean.2
  unfold ArrayRule.model? at found
  split at found <;> cases found
  · exact h.push c
  · refine h.join c fun own => ?_
    by_contra clean
    exact spared (.joined named clean own)
  · refine h.mapped c fun output mem own => ?_
    by_contra clean
    rw [not_or, Bool.not_eq_true, Bool.not_eq_true] at clean
    exact spared (.mapped named mem clean.1 clean.2 own)
  · exact reduces (by rw [named]; decide) rfl
  · exact reduces (by rw [named]; decide) rfl

theorem containerModel (h : m.Holds key) {kind : Container} {grain : Grain}
    {model : NativeCall → MemoryM Unit} (found : ContainerRule.model? kind grain name = some model)
    (spared : ¬ Deed.Forgets levels m key (.native (.container kind grain) c)) :
    (model c m).2.Holds key := by
  have read (label : String) (named : (kind, m.functionName c.f) ∈ [(.map, "get"), (.set, "values")])
      (imprecise : grain = .imprecise) : (ContainerRule.taintRead label c m).2.Holds key := by
    subst imprecise
    refine h.taintRead label c fun own => ?_
    by_contra clean
    rw [Bool.not_eq_true, Bool.or_eq_false_iff, Bool.or_eq_false_iff] at clean
    exact spared (.taken named clean.1.1 clean.1.2 clean.2 own)
  unfold ContainerRule.model? at found
  split at found <;> cases found
  · exact h.taintReceiver _ c
  · exact read _ (by rw [named]; decide) rfl
  · exact h.taintReceiver _ c
  · exact read _ (by rw [named]; decide) rfl
  all_goals exact h

end Models

theorem containerCall (h : m.Holds key) (levels : Levels) (kind : Container) (grain : Grain)
    (c : NativeCall) (spared : ¬ Deed.Forgets levels m key (.native (.container kind grain) c)) :
    (ContainerRule.call levels kind grain c m).2.Holds key := by
  unfold ContainerRule.call
  rw [bind_apply, get_apply]
  dsimp only
  rcases found : ContainerRule.model? kind grain (m.functionName c.f) with _ | model
  · dsimp only
    split
    · rename_i array
      subst array
      rcases found : ArrayRule.model? grain (m.functionName c.f) with _ | model
      · exact h.call _ c
      · dsimp only
        rw [bind_apply]
        have held := arrayModel rfl h found spared
        split
        · exact held
        · exact held.call _ c
    · exact h.call _ c
  · exact containerModel rfl h found spared

end Containers

end Memory.Holds

theorem Memory.Holds.relabel {m : Memory} {key : TaintKey} (h : m.Holds key) (v : Value)
    (label : String) : (MemoryM.relabel v label m).2.Holds key :=
  h.records (MemoryM.records_relabel v label m) h.ownTaint

namespace Deed

variable (levels : Levels) {m : Memory} {key : TaintKey}

theorem remembers_read (h : m.Holds key) {policy : Policy} {ops : Operands}
    (spared : ¬ (read policy ops).Forgets levels m key) : (policy.getField levels ops m).2.Holds key := by
  cases policy with
  | string =>
    show (TextRule.getField levels ops m).2.Holds key
    rw [TextRule.getField_apply]
    rcases chars : (m.entryOf ops.base).chars with _ | map
    · exact (h.used ⟨1, rfl⟩).getField _ ops
    · refine h.records (TextRule.records_getField m ops _) fun own => ?_
      by_contra clean
      exact spared (.character chars (Bool.not_eq_true _ |>.mp clean) own)
  | _ => exact h.getField _ ops

theorem remembers_binary (h : m.Holds key) {policy : Policy} {op : String} {ops : Operands}
    (spared : ¬ (binary policy op ops).Forgets levels m key) :
    (policy.binary levels op ops m).2.Holds key := by
  cases policy with
  | string =>
    have tracked : m.shadow.keyOf ops.value ≠ some key := fun own =>
      spared (.binary (fun other => absurd rfl other) own)
    have derived := TextRule.derives_concatenate m ops
    have object {m₁ : Memory} (h : m₁.Holds key) (marks : m.Marks m₁) :
        (ObjectRule.binary levels.objectGrain op ops m₁).2.Holds key :=
      h.records (ObjectRule.records_binary _ op ops m₁) fun own =>
        absurd ((keyOf_of_wraps marks.wraps _).symm.trans own) tracked
    show (TextRule.binary levels op ops m).2.Holds key
    unfold TextRule.binary
    rw [bind_apply, get_apply]
    dsimp only
    split
    · rw [bind_apply]
      split
      · exact h.derives derived tracked
      · exact object (h.derives derived tracked) (TextRule.marks_concatenate ops m)
    · exact object h (refl_of Marks m)
  | _ =>
    refine h.records (ObjectRule.records_binary _ op ops m) fun own => ?_
    by_contra clean
    rw [Bool.not_eq_true, Bool.or_eq_false_iff] at clean
    exact spared (.binary (fun _ => clean) own)

/-- A step keeps what is recorded, unless it records no taint for a value that is tracked already. -/
theorem remembers {d : Deed} (h : m.Holds key)
    (bounded : ∀ policy c, d = .native policy c → m.shadow.Bounded)
    (spared : ¬ d.Forgets levels m key) : (d.run levels m).2.Holds key := by
  cases d with
  | write v =>
    show (taintWritten v m).2.Holds key
    unfold taintWritten
    rw [bind_apply, bind_apply, get_apply]
    exact (h.used ((Policy.NodesUsed.refl m).more 1)).store fun _ => rfl
  | read policy ops => exact remembers_read levels h spared
  | store policy ops => exact h.putField policy levels ops
  | binary policy op ops => exact remembers_binary levels h spared
  | unary policy operand result =>
    refine h.records (ObjectRule.records_unary _ operand result m) fun own => ?_
    by_contra clean
    exact spared (.unary (Bool.not_eq_true _ |>.mp clean) own)
  | native policy c =>
    cases policy with
    | string =>
      exact h.textCall (bounded _ c rfl) levels c (fun own => spared (.text own))
        fun words named precise array id mem same => spared (.word named precise array mem same)
    | container kind grain => exact h.containerCall levels kind grain c spared
    | object grain => exact h.call _ c
    | global => exact h.call none c
    | lodash => exact h.call _ c
  | evaluate code sink maxLength =>
    have noted := h.relabel code evalLabel
    show (checkCode code sink maxLength m).2.Holds key
    unfold checkCode
    rw [lift_bind_apply, get_bind_apply]
    split
    · exact noted.used ((Policy.NodesUsed.refl _).more 1)
    · exact noted

end Deed

theorem Memory.lasting_holds (key : TaintKey) : Lasting (Holds key) where
  quiet quiet h := h.quiet quiet
  relabel v label _ h := h.relabel v label

/-- To write taint forgets none. -/
theorem Memory.outlasts_holds (key : TaintKey) : Outlasts (Holds key) true where
  whole v m h := h.records (MemoryM.records_setTaint v true m) fun _ => rfl
  property v name m h := by
    rcases MemoryM.records_setPropertyTaint v name true m with
      ⟨e, m', run, used⟩ | ⟨map, m', set, run, recorded⟩
    · rw [run]
      exact h.used used
    · rw [run]
      exact h.records recorded fun _ => CharMap.any_set?_true set

theorem Memory.ownTaint_iff {m : Memory} {v : Value} :
    m.ownTaint v = true ↔ ∃ key, m.shadow.keyOf v = some key ∧ m.Holds key := by
  constructor
  · intro tainted
    rcases stored : m.stored? v with _ | e
    · rw [ownTaint_of_none stored] at tainted
      cases tainted
    · obtain ⟨key, own, found⟩ := Option.bind_eq_some_iff.mp stored
      exact ⟨key, own, e, found, (ownTaint_of_stored stored).symm.trans tainted⟩
  · rintro ⟨key, own, h⟩
    exact h.ownTaint own

/-- The hook calls a ghost function that clears taint, or it takes a step that records no taint for the
value, which is tracked already. -/
def Hook.Forgets (h : Hook) (t : Tracker) (v : Value) : Prop :=
  (∃ c g, h = .callPre c ∧ t.ghostOf? c = some g ∧ g.writes? = some false) ∨
    ∃ key d m, t.memory.shadow.keyOf v = some key ∧ h.Does t d m ∧
      d.Forgets t.settings.policies m key

/-- A value that is tainted by its own entry is so after any hook that does not forget it. -/
theorem Hook.remembers (h : Hook) {t : Tracker} (reachable : Reachable t) {v : Value}
    (tainted : t.memory.ownTaint v = true) (spared : ¬ h.Forgets t v) :
    (h.run t).2.memory.ownTaint v = true := by
  obtain ⟨key, own, holds⟩ := ownTaint_iff.mp tainted
  refine ownTaint_iff.mpr ⟨key, (h.follows t).memory.keyOf own, ?_⟩
  refine h.lasts (lasting_holds key) (fun c g written same ghost writes => ?_)
    (fun d m does _ held => ?_) holds
  · cases written with
    | true => exact outlasts_holds key
    | false => exact absurd (.inl ⟨c, g, same, ghost, writes⟩) spared
  · refine d.remembers _ held (fun policy c native => ?_) fun forgets =>
      spared (.inr ⟨key, d, m, own, does, forgets⟩)
    subst native
    cases does with
    | native _ _ run _ => exact ((keeps_closeCall _ _ _).of_apply run).bounded reachable.bounded

/-- A store forgets no taint. -/
theorem Hook.putField_spares (base offset w v : Value) (t : Tracker) :
    ¬ (Hook.putField base offset w).Forgets t v := by
  rintro (⟨c, g, called, -⟩ | ⟨key, d, m, -, does, forgets⟩)
  · cases called
  · cases does with
    | store _ => cases forgets

/-- Nor does reading a property, where strings are not tracked character by character. -/
theorem Hook.getField_spares {t : Tracker} (plain : t.settings.policies.precision .string ≠ .precise)
    (base offset w v : Value) : ¬ (Hook.getField base offset w).Forgets t v := by
  rintro (⟨c, g, called, -⟩ | ⟨key, d, m, -, does, forgets⟩)
  · cases called
  · cases does with
    | read _ =>
      have string {policy : Policy} {ops : Operands} {key : TaintKey}
          (forgets : (Deed.read policy ops).Forgets t.settings.policies m key) : policy = .string := by
        cases forgets
        rfl
      exact Levels.resolve_ne_string plain _ (string forgets)

namespace Session

/-- The event is a hook that forgets the taint of the value. -/
def Forgets (v : Value) (s : Session) : Event → Prop
  | .hook h => h.Forgets s.tracker v
  | .host _ => False

theorem reachable_after {s : Session} (reachable : Reachable s.tracker) (e : Event) :
    Reachable (s.after e).tracker := by
  cases e with
  | hook h => exact .hook h reachable
  | host heap => exact .host heap reachable

theorem reachable_run {s : Session} (reachable : Reachable s.tracker) (events : List Event) :
    Reachable (s.run events).tracker := by
  induction events generalizing s with
  | nil => exact reachable
  | cons e rest ih => exact ih (reachable_after reachable e)

theorem remembers_after {s : Session} (reachable : Reachable s.tracker) {v : Value}
    (tainted : s.tracker.memory.ownTaint v = true) {e : Event} (spared : ¬ s.Forgets v e) :
    (s.after e).tracker.memory.ownTaint v = true := by
  cases e with
  | hook h => exact h.remembers reachable tainted spared
  | host heap =>
    obtain ⟨key, own, holds⟩ := ownTaint_iff.mp tainted
    exact ownTaint_iff.mpr ⟨key, own, holds⟩

/-- A value that is tainted by its own entry, in whatever state hooks in any order have led to, stays so
through all that follows, up to the first hook that forgets it. -/
theorem taint_persists {s : Session} (reachable : Reachable s.tracker) {v : Value}
    (tainted : s.tracker.memory.ownTaint v = true) {events : List Event}
    (spared : s.Avoids (Forgets v) events) :
    s.Always (fun s => s.tracker.memory.ownTaint v = true) events := by
  induction events generalizing s with
  | nil => exact tainted
  | cons e rest ih =>
    exact ⟨tainted, ih (reachable_after reachable e) (remembers_after reachable tainted spared.1)
      spared.2⟩

/-- A heap with a plain object, and with the function that taints values. -/
def objectAndSource : Heap :=
  ⟨#[{ kind := .plain "Object" }, { kind := .function { name := "__jalangi_set_taint__" } }]⟩

/-- The plain object is tainted. -/
def taintedObject : List Event :=
  [.host objectAndSource,
    .hook (.callPre { f := .object 1, base := .undefined, args := [.object 0], site := 1 })]

/-- The object is stored into itself and read again. -/
def storedAndRead : List Event :=
  [.hook (.putFieldPre (.object 0) (.string "self") (.object 0)),
    .hook (.putField (.object 0) (.string "self") (.object 0)),
    .hook (.getFieldPre (.object 0) (.string "self")),
    .hook (.getField (.object 0) (.string "self") (.object 0))]

/-- Where nothing is configured, the object keeps its taint. -/
theorem taint_persists_storedAndRead :
    Reachable (run (start {} ⟨#[]⟩) taintedObject).tracker ∧
    (run (start {} ⟨#[]⟩) taintedObject).tracker.memory.ownTaint (.object 0) = true ∧
    (run (start {} ⟨#[]⟩) taintedObject).Avoids (Forgets (.object 0)) storedAndRead ∧
    (run (start {} ⟨#[]⟩) taintedObject).Always (fun s => s.tracker.memory.ownTaint (.object 0) = true)
      storedAndRead := by
  have reachable := reachable_run (.start {} ⟨#[]⟩) taintedObject (s := start {} ⟨#[]⟩)
  have tainted : (run (start {} ⟨#[]⟩) taintedObject).tracker.memory.ownTaint (.object 0) = true := by
    decide +kernel
  have spared : (run (start {} ⟨#[]⟩) taintedObject).Avoids (Forgets (.object 0)) storedAndRead := by
    refine ⟨?_, Hook.putField_spares _ _ _ _ _, ?_, Hook.getField_spares ?_ _ _ _ _, trivial⟩
    · rintro (⟨c, g, called, -⟩ | ⟨key, d, m, -, does, -⟩)
      · cases called
      · cases does
    · rintro (⟨c, g, called, -⟩ | ⟨key, d, m, -, does, -⟩)
      · cases called
      · cases does
    · decide +kernel
  exact ⟨reachable, tainted, spared, taint_persists reachable tainted spared⟩

/-- The settings in which strings are tracked character by character. -/
def preciseStrings : Settings := { policies := ({} : Levels).set "string" .precise }

/-- A string is evaluated, and a property of it is about to be read. -/
def stringBase : List Event :=
  [.hook (.literal (.string "s")),
    .hook (.getFieldPre (.shadow ⟨0⟩ ⟨0⟩ (.string "s")) (.string "value"))]

/-- The property has the tainted object as its value. -/
def readThroughString : Event := .hook (.getField (.string "s") (.string "value") (.object 0))

/-- When a tainted object is read through an untainted string, its taint is gone. -/
theorem taint_forgotten :
    (run (start preciseStrings ⟨#[]⟩) (taintedObject ++ stringBase)).tracker.memory.ownTaint
      (.object 0) = true ∧
    (run (start preciseStrings ⟨#[]⟩) (taintedObject ++ stringBase ++ [readThroughString])
      ).tracker.memory.ownTaint (.object 0) = false ∧ readThroughString.call?.isNone = true := by
  decide +kernel

end Session

end ShadowTaint
