/-!
# Reading whole numbers

The spelling of a whole number: an optional plus sign and one or more decimal digits, leading
zeros allowed, with a value below a bound. Index keys are read with the bound `2 ^ 64`, node
numbers with the bound `2 ^ 32`.

## Main statements

- `readNatural?_toString`: a number that is written down is read back.
-/

namespace ShadowTaint.Text

/-- The value of a digit character, if it is one of `0` to `9`. -/
def digitValue? (c : Char) : Option Nat :=
  if '0' ≤ c ∧ c ≤ '9' then some (c.toNat - '0'.toNat) else none

/-- Continues a decimal number with more digits; anything else is refused. -/
def readDigits? (acc : Nat) : List Char → Option Nat
  | [] => some acc
  | c :: rest => (digitValue? c).bind fun d => readDigits? (10 * acc + d) rest

/-- Reads one or more digits. -/
def readDecimal? : List Char → Option Nat
  | [] => none
  | cs => readDigits? 0 cs

/-- The value of a hexadecimal digit in either case. -/
def hexValue? (c : Char) : Option Nat :=
  if '0' ≤ c ∧ c ≤ '9' then some (c.toNat - '0'.toNat)
  else if 'a' ≤ c ∧ c ≤ 'f' then some (c.toNat - 'a'.toNat + 10)
  else if 'A' ≤ c ∧ c ≤ 'F' then some (c.toNat - 'A'.toNat + 10)
  else none

/-- The number that digits of a base stand for. A character that is no digit of the base is
refused. -/
def readBase? (base : Nat) (cs : List Char) : Option Nat :=
  cs.foldlM (fun acc c => (hexValue? c).bind fun d =>
    if d < base then some (base * acc + d) else none) 0

/-- Reads a whole number below `bound`; one plus sign may stand in front. -/
def readNatural? (bound : Nat) (s : String) : Option Nat :=
  let digits := match s.toList with
    | '+' :: rest => rest
    | cs => cs
  (readDecimal? digits).bind fun n => if n < bound then some n else none

theorem isDigit_of_mem_toString {c : Char} {i : Nat} (mem : c ∈ (toString i).toList) :
    c.isDigit = true := by
  rw [Nat.toString_eq_repr, Nat.toList_repr] at mem
  exact Nat.isDigit_of_mem_toDigits (by decide) (by decide) mem

/-- The key of a character is not that of the length. -/
theorem toString_ne_length (i : Nat) : toString i ≠ "length" := by
  intro same
  have digit : ('l' : Char).isDigit = true := isDigit_of_mem_toString (i := i) (by rw [same]; decide)
  cases digit

/-- Digits are read back as the number that they spell. -/
theorem readDigits?_of_digits {cs : List Char} (digits : ∀ c ∈ cs, c.isDigit = true) (acc : Nat) :
    readDigits? acc cs = some (Nat.ofDigitChars 10 cs acc) := by
  induction cs generalizing acc with
  | nil => rfl
  | cons c rest ih =>
    have digit := digits c List.mem_cons_self
    have value : digitValue? c = some (c.toNat - '0'.toNat) := by
      refine if_pos ?_
      simpa [Char.isDigit, Char.le_def] using digit
    rw [readDigits?, value, Option.bind_some, ih fun c mem => digits c (List.mem_cons_of_mem _ mem)]
    rfl

/-- The spelling of a number below the bound is read back as the number. -/
theorem readNatural?_toString {bound i : Nat} (small : i < bound) :
    readNatural? bound (toString i) = some i := by
  have digits : ∀ c ∈ (toString i).toList, c.isDigit = true := fun c mem =>
    isDigit_of_mem_toString mem
  have text : (toString i).toList = Nat.toDigits 10 i := by
    rw [Nat.toString_eq_repr, Nat.toList_repr]
  unfold readNatural?
  cases spelled : (toString i).toList with
  | nil =>
    rw [text] at spelled
    exact absurd spelled Nat.toDigits_ne_nil
  | cons c rest =>
    have plain : c ≠ '+' := by
      rintro rfl
      have digit := digits '+' (by rw [spelled]; exact List.mem_cons_self)
      cases digit
    have read : readDecimal? (c :: rest) = some i := by
      rw [spelled] at digits
      show readDigits? 0 (c :: rest) = _
      rw [readDigits?_of_digits digits, ← spelled, text, Nat.ofDigitChars_toDigits (by decide)
        (by decide)]
    split
    · rename_i same
      cases same
      exact absurd rfl plain
    · show ((readDecimal? (c :: rest)).bind fun n => if n < bound then some n else none) = some i
      rw [read, Option.bind_some, if_pos small]

/-- Numbers are told apart by their spelling. -/
theorem eq_of_toString_eq {i j : Nat} (same : toString i = toString j) : i = j := by
  have first := readNatural?_toString (show i < i + j + 1 by omega)
  have second := readNatural?_toString (show j < i + j + 1 by omega)
  rw [same, second] at first
  exact (Option.some.inj first).symm

/-- Reads an index of an array or a string. -/
def readIndex? (s : String) : Option Nat := readNatural? (Nat.pow 2 64) s

theorem readIndex?_toString {i : Nat} (small : i < Nat.pow 2 64) : readIndex? (toString i) = some i :=
  readNatural?_toString small

/-- Reads the number of a node. -/
def readNodeId? (s : String) : Option Nat := readNatural? (Nat.pow 2 32) s

theorem readNodeId?_toString {i : Nat} (small : i < Nat.pow 2 32) :
    readNodeId? (toString i) = some i := readNatural?_toString small

end ShadowTaint.Text
