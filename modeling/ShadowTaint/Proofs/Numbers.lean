import Mathlib.Data.List.DropRight
import Mathlib.Data.List.TakeDrop
import ShadowTaint.Native.Strings
/-!
# Numbers as positions

Two coercions make a position of a number. Both round toward zero, and they saturate at different bounds, so
they agree where a text has less than `2 ^ 63` characters, if what is not above zero is rounded to a number
that is not. That is read off the bits of a double.

A string is read as a number first. Its first character tells most texts from those that spell one.

## Main statements

- `spelledNumber?_of_first`: a text that does not begin like a number spells none.
- `Decimal.toInt64_le_zero`: a double that is not above zero is rounded to a number that is not.
- `Decimal.positionWithin_toInt64`: both coercions give the same position.
-/

namespace ShadowTaint

namespace Decimal

/-- Whether a number can begin with the character: it is a sign, a point, a digit, or the first letter of
the word for an infinity or for not-a-number. -/
def begins (c : Char) : Bool :=
  c = '-' || c = '+' || c = '.' || c.toLower = 'i' || c.toLower = 'n' || ('0' ≤ c && c ≤ '9')

theorem read?_of_first {c : Char} (other : begins c = false) (rest : List Char) :
    read? (c :: rest) = none := by
  simp only [begins, Bool.or_eq_false_iff, decide_eq_false_iff_not] at other
  obtain ⟨⟨⟨⟨⟨minus, plus⟩, point⟩, i⟩, n⟩, digit⟩ := other
  have sign : readSign (c :: rest) = (false, c :: rest) := by
    unfold readSign
    split
    · rename_i same
      exact absurd (List.cons.inj same).1 minus
    · rename_i same
      exact absurd (List.cons.inj same).1 plus
    · rfl
  have span : spanDigits (c :: rest) = ([], c :: rest) := by
    rw [spanDigits, List.span_eq_takeWhile_dropWhile]
    simp [digit]
  have unsigned : readUnsigned? (c :: rest) = none := by
    unfold readUnsigned?
    rw [span]
    dsimp only
    split
    · rename_i same
      exact absurd (List.cons.inj same).1 point
    · rfl
  unfold read?
  rw [sign]
  simp [unsigned, i, n]

theorem begins_of_large {c : Char} (large : 0x80 ≤ c.toNat) : begins c = false := by
  have other {d : Char} (small : d.toNat < 0x80) : c ≠ d := by
    rintro rfl
    omega
  have lower : c.toLower = c := by
    unfold Char.toLower
    split
    · rename_i upper
      have above : c.toNat ≤ 90 := UInt32.le_iff_toNat_le.mp upper.2
      omega
    · rfl
  have digit : ¬ c ≤ '9' := by
    intro below
    have above : c.toNat ≤ 57 := UInt32.le_iff_toNat_le.mp below
    omega
  simp [begins, lower, digit, other (show '-'.toNat < 0x80 by decide), other (show '+'.toNat < 0x80 by decide),
    other (show '.'.toNat < 0x80 by decide), other (show 'i'.toNat < 0x80 by decide),
    other (show 'n'.toNat < 0x80 by decide)]

end Decimal

/-- A text without any character that numbers begin with spells no number. -/
theorem spelledNumber?_of_large {s : String} (large : ∀ c ∈ s.toList, 0x80 ≤ c.toNat) :
    spelledNumber? s = none := by
  rw [spelledNumber?]
  rcases trimmed : Text.trimBlanks s.toList with _ | ⟨c, rest⟩
  · decide +kernel
  · refine Decimal.read?_of_first (Decimal.begins_of_large (large c ?_)) rest
    have mem : c ∈ Text.trimBlanks s.toList := by rw [trimmed]; exact List.mem_cons_self
    have inner := (List.dropWhile_suffix _).subset (List.mem_reverse.mp mem)
    exact (List.dropWhile_suffix _).subset (List.mem_reverse.mp inner)

/-- A text that begins with another character spells no number. -/
theorem spelledNumber?_of_first {s : String} {c : Char} {rest : List Char} (text : s.toList = c :: rest)
    (solid : Text.isBlank c = false) (other : Decimal.begins c = false) : spelledNumber? s = none := by
  rw [spelledNumber?, Text.trimBlanks, text, List.dropWhile_cons_of_neg (by simp [solid])]
  obtain ⟨kept, cut⟩ : ∃ kept, (c :: rest).rdropWhile Text.isBlank = c :: kept := by
    rcases kept : (c :: rest).rdropWhile Text.isBlank with _ | ⟨d, ds⟩
    · have blank := List.rdropWhile_eq_nil_iff.mp kept c List.mem_cons_self
      rw [solid] at blank
      cases blank
    · have front := List.rdropWhile_prefix Text.isBlank (l := c :: rest)
      rw [kept, List.cons_prefix_cons] at front
      exact ⟨ds, by rw [front.1]⟩
  rw [← List.rdropWhile, cut]
  exact Decimal.read?_of_first other kept

namespace Decimal

section Rounding

open Float.Model Float.Model.UnpackedFloat

theorem unpack_zero : (0.0 : Float).toModel.unpack = .zero .positive := rfl

theorem toNat_unpackMantissa (b : BitVec 64) :
    (@unpackMantissa Format.binary64 b).toNat = b.toNat % Nat.pow 2 52 :=
  BitVec.extractLsb'_toNat 0 52 b

theorem toNat_unpackExponent (b : BitVec 64) :
    (@unpackExponent Format.binary64 b).toNat = b.toNat / Nat.pow 2 52 % Nat.pow 2 11 := by
  refine (BitVec.extractLsb'_toNat 52 11 b).trans ?_
  rw [Nat.shiftRight_eq_div_pow]

theorem toNat_unpackSign (b : BitVec 64) :
    (@unpackSign Format.binary64 b).toNat = b.toNat / Nat.pow 2 63 := by
  have single : b.toNat / Nat.pow 2 63 < 2 := Nat.div_lt_of_lt_mul b.isLt
  refine (BitVec.extractLsb'_toNat 63 1 b).trans ?_
  rw [Nat.shiftRight_eq_div_pow]
  exact Nat.mod_eq_of_lt single

theorem truncated_negative (m : Nat) (e : Int) : Binary64.truncated true m e ≤ 0 := by
  simp only [Binary64.truncated]
  exact Int.neg_nonpos_of_nonneg (Int.natCast_nonneg _)

theorem truncated_zero (negative : Bool) (e : Int) : Binary64.truncated negative 0 e = 0 := by
  cases e <;> simp [Binary64.truncated, Binary64.ratio]

/-- A number that is not above zero stays so. -/
theorem saturate_le_zero {n : Int} (low : n ≤ 0) : saturate minInt64 maxInt64 n ≤ 0 := by
  unfold saturate
  split
  · decide
  · split
    · have above : 0 < maxInt64 := by decide
      omega
    · exact low

/-- What rounds to a number above zero is positive. -/
theorem ofFloat_of_toInt64 {x : Float} (positive : 0 < toInt64 x) :
    Binary64.ofFloat x = .infinite false ∨ ∃ m e, m ≠ 0 ∧ Binary64.ofFloat x = .finite false m e := by
  have low {n : Int} (le : n ≤ 0) (less : 0 < n) : False := by omega
  unfold toInt64 at positive
  rcases shape : Binary64.ofFloat x with _ | (_ | _) | ⟨_ | _, m, e⟩ <;> rw [shape] at positive
  · exact (low (Int.le_refl 0) positive).elim
  · exact .inl rfl
  · exact (low (by decide) positive).elim
  · refine .inr ⟨m, e, ?_, rfl⟩
    rintro rfl
    exact low (saturate_le_zero (Int.le_of_eq (truncated_zero false e))) positive
  · exact (low (saturate_le_zero (truncated_negative m e)) positive).elim

section Fields

variable {x : Float}

theorem unpackExponent_eq_iff (e : BitVec 11) :
    @unpackExponent Format.binary64 x.toModel.toBits.toBitVec = e ↔
      x.toBits.toNat / Nat.pow 2 52 % Nat.pow 2 11 = e.toNat := by
  rw [← BitVec.toNat_inj, toNat_unpackExponent]
  rfl

theorem unpackMantissa_eq_iff (m : BitVec 52) :
    @unpackMantissa Format.binary64 x.toModel.toBits.toBitVec = m ↔
      x.toBits.toNat % Nat.pow 2 52 = m.toNat := by
  rw [← BitVec.toNat_inj, toNat_unpackMantissa]
  rfl

theorem sign_unpack (above : decide (Nat.pow 2 63 ≤ x.toBits.toNat) = false) :
    Sign.ofBitVec (@unpackSign Format.binary64 x.toModel.toBits.toBitVec) = .positive := by
  rw [Sign.ofBitVec, if_pos]
  rw [← BitVec.toNat_inj, toNat_unpackSign]
  exact Nat.div_eq_of_lt (Nat.lt_of_not_le (of_decide_eq_false above))

end Fields

theorem exists_of_finite {m : Nat} {e : Int} (above : 0 < m) : ∃ m' e' above',
    UnpackedFloat.finite .positive m e above = .finite .positive m' e' above' :=
  ⟨m, e, above, rfl⟩

/-- A double that rounds to a number above zero is positive. -/
theorem unpack_of_toInt64 {x : Float} (positive : 0 < toInt64 x) :
    x.toModel.unpack = .infinity .positive ∨ ∃ m e above, x.toModel.unpack = .finite .positive m e above := by
  unfold Float.Model.unpack UnpackedFloat.unpack
  dsimp only
  have found := ofFloat_of_toInt64 positive
  unfold Binary64.ofFloat at found
  dsimp only at found
  by_cases top : x.toBits.toNat / Nat.pow 2 52 % Nat.pow 2 11 = Nat.pow 2 11 - 1
  · rw [if_pos ((unpackExponent_eq_iff _).mpr top)]
    rw [if_pos top] at found
    by_cases bare : x.toBits.toNat % Nat.pow 2 52 = 0
    · rw [if_pos ((unpackMantissa_eq_iff _).mpr bare)]
      rw [if_pos bare] at found
      rcases found with infinite | ⟨m, e, -, finite⟩
      · exact .inl (by rw [sign_unpack (Binary64.infinite.inj infinite)])
      · cases finite
    · rw [if_neg bare] at found
      rcases found with infinite | ⟨m, e, -, finite⟩
      · cases infinite
      · cases finite
  · rw [if_neg ((unpackExponent_eq_iff _).not.mpr top)]
    rw [if_neg top] at found
    right
    by_cases bottom : x.toBits.toNat / Nat.pow 2 52 % Nat.pow 2 11 = 0
    · rw [if_pos ((unpackExponent_eq_iff _).mpr bottom)]
      rw [if_pos bottom] at found
      rcases found with infinite | ⟨m, e, nonzero, finite⟩
      · cases infinite
      · obtain ⟨above, rfl, rfl⟩ := Binary64.finite.inj finite
        rw [dif_neg ((unpackMantissa_eq_iff _).not.mpr nonzero), sign_unpack above]
        exact exists_of_finite _
    · rw [if_neg ((unpackExponent_eq_iff _).not.mpr bottom)]
      rw [if_neg bottom] at found
      rcases found with infinite | ⟨m, e, -, finite⟩
      · cases infinite
      · rw [sign_unpack (Binary64.finite.inj finite).1]
        exact exists_of_finite _

/-- What is not above zero is rounded to a number that is not. -/
theorem toInt64_le_zero {x : Float} (low : (x.isNaN || x <= 0.0) = true) : toInt64 x ≤ 0 := by
  by_contra positive
  have low : x.toModel.unpack.isNaN = true ∨ x.toModel.unpack.le (.zero .positive) = true := by
    rw [← unpack_zero]
    exact ((Bool.or_eq_true _ _).mp low).imp_right fun le => of_decide_eq_true (of_decide_eq_true le)
  rcases unpack_of_toInt64 (Int.not_le.mp positive) with infinite | ⟨m, e, above, finite⟩
  · rw [infinite] at low
    revert low
    decide
  · rw [finite] at low
    rcases low with nan | le
    · cases nan
    · cases le

end Rounding

/-- Both bounds are out of reach of a position. -/
theorem positionWithin_toInt64 (x : Float) {length : Nat} (fits : length < Nat.pow 2 63) :
    positionWithin length (toInt64 x) =
      if x.isNaN || x <= 0.0 then 0 else min (toIndex x) length := by
  by_cases low : (x.isNaN || x <= 0.0) = true
  · have rounded := toInt64_le_zero low
    rw [if_pos low, positionWithin, Int.toNat_of_nonpos rounded, Nat.zero_min]
  · have least : minInt64 = -2 ^ 63 := by decide
    have greatest : maxInt64 = 2 ^ 63 - 1 := by decide
    have greatest' : Int.ofNat (Nat.pow 2 64) - 1 = 2 ^ 64 - 1 := by decide
    have infinite : Nat.pow 2 64 - 1 = 2 ^ 64 - 1 := by decide
    have fits : length < 2 ^ 63 := fits
    rw [if_neg low, positionWithin]
    unfold toInt64 toIndex
    rcases Binary64.ofFloat x with _ | (_ | _) | ⟨negative, m, e⟩
    · rfl
    · dsimp only
      rw [greatest, infinite]
      omega
    · rfl
    · dsimp only
      rw [least, greatest, greatest']
      generalize Binary64.truncated negative m e = n
      unfold saturate
      omega

end Decimal

end ShadowTaint
