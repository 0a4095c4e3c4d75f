import ShadowTaint.Text.Natural
/-!
# Taint of the characters of a string

A map holds one taint bit per character and one for the length of the string. Its keys are the
indices and the word `length`. Tainting a character taints the length with it; clearing one leaves
the length alone.

## Main statements

- `CharMap.any_eq_true_iff`, `CharMap.all_eq_true_iff`: the two summaries of a map.
-/

namespace ShadowTaint

/-- One taint bit per character of a string and one for its length. -/
structure CharMap where
  chars : List Bool
  length : Bool
deriving DecidableEq, Repr

namespace CharMap

/-- The map of a string whose characters and length all have the same taint. -/
def uniform (count : Nat) (tainted : Bool) : CharMap := ⟨List.replicate count tainted, tainted⟩

/-- The map with these bits, in which the length is tainted as soon as one character is. -/
def ofBits (bits : List Bool) : CharMap := ⟨bits, bits.any id⟩

/-- The taint under a key. -/
def get? (m : CharMap) (key : String) : Option Bool :=
  if key = "length" then some m.length else (Text.readIndex? key).bind fun i => m.chars[i]?

/-- The taint of a character; characters beyond the end are untainted. -/
def charAt (m : CharMap) (i : Nat) : Bool := m.chars.getD i false

/-- The map with the taint of one character replaced. -/
def setChar (m : CharMap) (i : Nat) (tainted : Bool) : CharMap :=
  ⟨m.chars.set i tainted, m.length || tainted⟩

/-- Stores a taint under a key, if the map has the key. -/
def set? (m : CharMap) (key : String) (tainted : Bool) : Option CharMap :=
  if key = "length" then some { m with length := tainted }
  else match Text.readIndex? key with
    | none => none
    | some i => if i < m.chars.length then some (m.setChar i tainted) else none

/-- Whether anything in the map is tainted. -/
def any (m : CharMap) : Bool := m.length || m.chars.any id

/-- Whether everything in the map is tainted. -/
def all (m : CharMap) : Bool := m.length && m.chars.all id

/-- The indices of the tainted characters. -/
def taintedIndices (m : CharMap) : List Nat :=
  (List.range m.chars.length).filter m.charAt

theorem any_eq_true_iff (m : CharMap) : m.any = true ↔ m.length = true ∨ true ∈ m.chars := by
  simp [any]

theorem all_eq_true_iff (m : CharMap) :
    m.all = true ↔ m.length = true ∧ ∀ b ∈ m.chars, b = true := by
  simp [all]

end CharMap

end ShadowTaint
