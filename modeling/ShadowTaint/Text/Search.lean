/-!
# Searching a text for another one

Positions count characters. An empty text is found at the start of every text.

## Main definitions

- `indexOf?`: where a text first occurs in another one.
- `replaceFirst`: the text with its first occurrence of a pattern replaced.
- `splitAt`: the pieces between the occurrences of a separator, from left to right.
-/

namespace ShadowTaint.Text

/-- The position of the first occurrence of `needle`. -/
def indexOf? (needle : List Char) : List Char → Option Nat
  | [] => if needle.isEmpty then some 0 else none
  | c :: rest =>
    if needle.isPrefixOf (c :: rest) then some 0 else (indexOf? needle rest).map (· + 1)

/-- Whether `needle` occurs in the text. -/
def occursIn (needle hay : List Char) : Bool := (indexOf? needle hay).isSome

/-- A text occurs in another one if it stands anywhere in it. -/
theorem occursIn_iff_infix {needle hay : List Char} : occursIn needle hay = true ↔ needle <:+: hay := by
  rw [occursIn]
  induction hay with
  | nil => simp [indexOf?, List.infix_nil]
  | cons c rest ih =>
    rw [indexOf?, List.infix_cons_iff, ← ih, ← List.isPrefixOf_iff_prefix]
    by_cases here : needle.isPrefixOf (c :: rest) = true
    · simp [here]
    · simp [here]

/-- The text with the first occurrence of `pattern` replaced. -/
def replaceFirst (pattern replacement s : List Char) : List Char :=
  match indexOf? pattern s with
  | none => s
  | some i => s.take i ++ replacement ++ s.drop (i + pattern.length)

theorem indexOf?_le {needle s : List Char} {i : Nat} (h : indexOf? needle s = some i) :
    i + needle.length ≤ s.length := by
  induction s generalizing i with
  | nil =>
    cases needle with
    | nil => simp [indexOf?] at h; subst h; simp
    | cons _ _ => simp [indexOf?] at h
  | cons c rest ih =>
    unfold indexOf? at h
    split at h
    · rename_i hp
      cases h
      have := (List.isPrefixOf_iff_prefix.1 hp).length_le
      simpa using this
    · obtain ⟨j, hj, rfl⟩ := Option.map_eq_some_iff.1 h
      have := ih hj
      simp only [List.length_cons]
      omega

/-- The pieces between the occurrences of a separator, which is `first :: others`. Occurrences are
taken from left to right and do not overlap. -/
def splitAt (first : Char) (others : List Char) (s : List Char) : List (List Char) :=
  match _h : indexOf? (first :: others) s with
  | none => [s]
  | some i => s.take i :: splitAt first others (s.drop (i + (first :: others).length))
termination_by s.length
decreasing_by
  have := indexOf?_le _h
  simp only [List.length_drop, List.length_cons] at *
  omega

/-- The pieces of a text at every occurrence of a character. -/
def splitAtChar (c : Char) (s : List Char) : List (List Char) := splitAt c [] s

/-- The text before the first occurrence of a character and the text after it. -/
def splitOnce (c : Char) (s : List Char) : Option (List Char × List Char) :=
  match s with
  | [] => none
  | d :: rest =>
    if d = c then some ([], rest)
    else (splitOnce c rest).map fun p => (d :: p.1, p.2)

/-- Puts `sep` between the pieces. -/
def joinWith (sep : List Char) : List (List Char) → List Char
  | [] => []
  | [s] => s
  | s :: rest => s ++ sep ++ joinWith sep rest

end ShadowTaint.Text
