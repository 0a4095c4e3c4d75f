import Mathlib.Data.Rat.Cast.CharZero
import Mathlib.Tactic.NormNum
import Mathlib.Tactic.Positivity
import ShadowTaint.Proofs.Settling
/-!
# Texts of whole numbers

A double that holds a whole number below `10 ^ 21` is written as a 64-bit signed number. The text is the decimal
representation of the number as long as that is one of them. At and beyond each bound all numbers have one text, and
so they are one property key.

## Main definitions

- `Decimal.Binary64.value?`, `Decimal.Holds`: the number that a double stands for.
- `Decimal.SharesText`: the whole numbers that are written alike.

## Main statements

- `Decimal.text_of_holds`: the text of a whole number is that of the 64-bit number nearest to it.
- `Heap.keyText_whole`: which whole numbers have their own digits, and which ones have the same key.
-/

namespace ShadowTaint

namespace Decimal

/-- The number that a finite double stands for. -/
def Binary64.value? : Binary64 → Option ℚ
  | .finite negative m e => some (if negative then -(m * 2 ^ e) else m * 2 ^ e)
  | _ => none

/-- The double holds the whole number exactly. -/
def Holds (x : Float) (n : Int) : Prop := (Binary64.ofFloat x).value? = some (n : ℚ)

/-- The numbers are equal, or both lie at or beyond the same bound of the 64-bit signed numbers. -/
def SharesText (m n : Int) : Prop := m = n ∨ (2 ^ 63 ≤ m ∧ 2 ^ 63 ≤ n) ∨ (m ≤ -2 ^ 63 ∧ n ≤ -2 ^ 63)

variable {x y : Float} {m n : Int}

theorem ratio_value (mantissa : Nat) (exponent : Int) : 0 < (Binary64.ratio mantissa exponent).2 ∧
    (mantissa : ℚ) * 2 ^ exponent =
      ((Binary64.ratio mantissa exponent).1 : ℚ) / (Binary64.ratio mantissa exponent).2 := by
  cases exponent with
  | ofNat e =>
    refine ⟨Nat.one_pos, ?_⟩
    simp [Binary64.ratio]
  | negSucc e =>
    refine ⟨Nat.pow_pos (by decide), ?_⟩
    simp [Binary64.ratio, zpow_negSucc, div_eq_mul_inv]

/-- A magnitude that is a whole number, as an equation of whole numbers. -/
theorem ratio_of_eq {mantissa : Nat} {exponent : Int} (whole : (mantissa : ℚ) * 2 ^ exponent = n) :
    ((Binary64.ratio mantissa exponent).1 : Int) = n * (Binary64.ratio mantissa exponent).2 := by
  obtain ⟨pos, value⟩ := ratio_value mantissa exponent
  rw [value] at whole
  have nonzero : ((Binary64.ratio mantissa exponent).2 : ℚ) ≠ 0 := by exact_mod_cast pos.ne'
  have cast := (div_eq_iff nonzero).mp whole
  exact_mod_cast cast

theorem exists_of_holds (holds : Holds x n) : ∃ negative mantissa exponent,
    Binary64.ofFloat x = .finite negative mantissa exponent ∧
    ((Binary64.ratio mantissa exponent).1 : Int) =
      (if negative then -n else n) * (Binary64.ratio mantissa exponent).2 := by
  unfold Holds at holds
  rcases shape : Binary64.ofFloat x with _ | _ | ⟨negative, mantissa, exponent⟩ <;> rw [shape] at holds
  · cases holds
  · cases holds
  · have held := Option.some.inj holds
    refine ⟨negative, mantissa, exponent, rfl, ?_⟩
    cases negative with
    | false => exact ratio_of_eq held
    | true =>
      have opposite := neg_eq_iff_eq_neg.mp held
      rw [← Int.cast_neg] at opposite
      exact ratio_of_eq opposite

/-- A whole number is not changed when it is rounded toward zero. -/
theorem whole_of_ratio {mantissa : Nat} {exponent : Int} {negative : Bool}
    (whole : ((Binary64.ratio mantissa exponent).1 : Int) =
      (if negative then -n else n) * (Binary64.ratio mantissa exponent).2) :
    Binary64.isWhole mantissa exponent = true ∧ Binary64.truncated negative mantissa exponent = n := by
  have pos := (ratio_value mantissa exponent).1
  unfold Binary64.isWhole Binary64.truncated
  generalize Binary64.ratio mantissa exponent = parts at whole pos
  obtain ⟨num, den⟩ := parts
  have divides : (den : Int) ∣ num := ⟨_, whole.trans (mul_comm _ _)⟩
  have quotient : Int.ofNat (num / den) = if negative then -n else n := by
    show ((num / den : Nat) : Int) = _
    rw [Int.natCast_div, whole, Int.mul_ediv_cancel _ (by exact_mod_cast pos.ne')]
  refine ⟨decide_eq_true (Nat.mod_eq_zero_of_dvd (by exact_mod_cast divides)), ?_⟩
  dsimp only
  rw [quotient]
  cases negative with
  | false => rfl
  | true => exact neg_neg n

theorem text_of_holds (holds : Holds x n) (small : n.natAbs < 10 ^ 21) :
    text x = toString (saturate minInt64 maxInt64 n) := by
  obtain ⟨negative, mantissa, exponent, shape, ratio⟩ := exists_of_holds holds
  obtain ⟨whole, rounded⟩ := whole_of_ratio ratio
  have below : n.natAbs < wholeLimit := small
  unfold text
  rw [shape]
  dsimp only
  rw [whole, rounded, Bool.true_and, if_pos (decide_eq_true below)]

theorem mantissa_lt {negative : Bool} {mantissa : Nat} {exponent : Int}
    (shape : Binary64.ofFloat x = .finite negative mantissa exponent) : mantissa < 2 ^ 53 := by
  have fraction : x.toBits.toNat % Nat.pow 2 52 < 2 ^ 52 := Nat.mod_lt _ (by decide)
  have power : Nat.pow 2 52 = 2 ^ 52 := rfl
  unfold Binary64.ofFloat at shape
  dsimp only at shape
  split at shape
  · split at shape <;> cases shape
  · split at shape
    · cases shape
      omega
    · cases shape
      omega

/-- The greatest 64-bit signed number is odd and has more than the 53 binary digits of a double. -/
theorem ne_maxInt64_of_holds (holds : Holds x n) : n ≠ 2 ^ 63 - 1 := by
  rintro rfl
  obtain ⟨negative, mantissa, exponent, shape, ratio⟩ := exists_of_holds holds
  have digits := mantissa_lt shape
  have pos := (ratio_value mantissa exponent).1
  cases negative with
  | true =>
    have unsigned : (0 : Int) ≤ (Binary64.ratio mantissa exponent).1 := Int.natCast_nonneg _
    rw [ratio, if_pos rfl] at unsigned
    have product : (0 : Int) < (2 ^ 63 - 1) * (Binary64.ratio mantissa exponent).2 := by positivity
    omega
  | false =>
    cases exponent with
    | ofNat e =>
      have product : mantissa * 2 ^ e = 2 ^ 63 - 1 := by
        have whole : ((mantissa * 2 ^ e : Nat) : Int) = (2 ^ 63 - 1) * (1 : Nat) := ratio
        omega
      cases e with
      | zero => omega
      | succ e =>
        rw [Nat.pow_succ, ← mul_assoc] at product
        omega
    | negSucc e =>
      have whole : (mantissa : Int) = (2 ^ 63 - 1) * (2 ^ (e + 1) : Nat) := ratio
      have power : 0 < 2 ^ (e + 1) := Nat.two_pow_pos _
      omega

theorem saturate_eq_self_iff : saturate minInt64 maxInt64 n = n ↔ -2 ^ 63 ≤ n ∧ n < 2 ^ 63 := by
  have least : minInt64 = -2 ^ 63 := by decide
  have greatest : maxInt64 = 2 ^ 63 - 1 := by decide
  rw [least, greatest, saturate]
  omega

theorem saturate_eq_iff (held : m ≠ 2 ^ 63 - 1) (held' : n ≠ 2 ^ 63 - 1) :
    saturate minInt64 maxInt64 m = saturate minInt64 maxInt64 n ↔ SharesText m n := by
  have least : minInt64 = -2 ^ 63 := by decide
  have greatest : maxInt64 = 2 ^ 63 - 1 := by decide
  rw [least, greatest, saturate, saturate, SharesText]
  omega

/-- Whole numbers are told apart by their spelling: a minus sign is no digit. -/
theorem toString_inj : toString m = toString n ↔ m = n := by
  have unlike (i j : Nat) : toString (Int.ofNat i) ≠ toString (Int.negSucc j) := by
    intro same
    have sign : '-' ∈ (toString (Int.negSucc j)).toList := String.toList_append ▸ List.mem_cons_self
    rw [← same] at sign
    cases Text.isDigit_of_mem_toString sign
  refine ⟨fun same => ?_, fun same => by rw [same]⟩
  cases m with
  | ofNat i =>
    cases n with
    | ofNat j => rw [Text.eq_of_toString_eq (i := i) (j := j) same]
    | negSucc j => exact absurd same (unlike i j)
  | negSucc i =>
    cases n with
    | ofNat j => exact absurd same.symm (unlike j i)
    | negSucc j => rw [Nat.succ_injective (Text.eq_of_toString_eq ((String.append_right_inj _).mp same))]

/-- Whole numbers have the same text exactly if they are equal or both too great in the same direction. -/
theorem text_eq_iff (holds : Holds x m) (holds' : Holds y n) (small : m.natAbs < 10 ^ 21)
    (small' : n.natAbs < 10 ^ 21) : text x = text y ↔ SharesText m n := by
  rw [text_of_holds holds small, text_of_holds holds' small']
  exact toString_inj.trans (saturate_eq_iff (ne_maxInt64_of_holds holds) (ne_maxInt64_of_holds holds'))

end Decimal

namespace Heap

open Decimal

variable {v w : Value} {x y : Float} {m n : Int}

/-- The key of a number is its text, bare or in a shadow. -/
theorem keyText_of_number (h : Heap) (number : v.number? = some x) : h.keyText v = text x := by
  rcases v with l | id | ⟨_, _, l⟩
  · cases l <;> cases number
    rw [keyText_of_plain rfl]
    rfl
  · cases number
  · cases l <;> cases number
    rw [keyText_of_plain rfl]
    rfl

/-- The key of a whole number is its text. These are its own digits exactly if it is a 64-bit signed number. Different
numbers have different keys, and they make different texts when they are concatenated with others, unless both are too
great in the same direction. -/
theorem keyText_whole (h : Heap) (number : v.number? = some x) (holds : Holds x m) (small : m.natAbs < 10 ^ 21) :
    h.keyText v = text x ∧ (text x = toString m ↔ -2 ^ 63 ≤ m ∧ m < 2 ^ 63) ∧
    ∀ w y n, w.number? = some y → Holds y n → n.natAbs < 10 ^ 21 →
      (h.keyText v = h.keyText w ↔ SharesText m n) ∧
      ∀ before after, before ++ h.keyText v ++ after = before ++ h.keyText w ++ after ↔ SharesText m n := by
  rw [h.keyText_of_number number]
  refine ⟨rfl, ?_, ?_⟩
  · rw [text_of_holds holds small]
    exact toString_inj.trans saturate_eq_self_iff
  · intro w y n number' holds' small'
    rw [h.keyText_of_number number']
    refine ⟨text_eq_iff holds holds' small small', fun before after => ?_⟩
    rw [String.append_left_inj, String.append_right_inj]
    exact text_eq_iff holds holds' small small'

theorem holds_of_ofFloat {negative : Bool} {mantissa : Nat} {exponent : Int}
    (shape : Binary64.ofFloat x = .finite negative mantissa exponent)
    (value : (if negative then -((mantissa : ℚ) * 2 ^ exponent) else mantissa * 2 ^ exponent) = m) : Holds x m := by
  unfold Holds
  rw [shape, Binary64.value?, value]

theorem holds_least : Holds (-9223372036854775808.0) (-2 ^ 63) := by
  have shape : Binary64.ofFloat (-9223372036854775808.0) = .finite true 4503599627370496 11 := by decide +kernel
  exact holds_of_ofFloat shape (by norm_num)

theorem holds_tenPow19 : Holds 1e19 (10 ^ 19) := by
  have shape : Binary64.ofFloat 1e19 = .finite false 4882812500000000 11 := by decide +kernel
  exact holds_of_ofFloat shape (by norm_num)

/-- The least 64-bit signed number still has its own digits, in a shadow as well, and no other key than itself. -/
theorem keyText_least : Holds (-9223372036854775808.0) (-2 ^ 63) ∧ Holds 1e19 (10 ^ 19) ∧
    initial.keyText (.shadow ⟨0⟩ ⟨0⟩ (.number (-9223372036854775808.0))) = toString (-2 ^ 63 : Int) ∧
    initial.keyText (.shadow ⟨0⟩ ⟨0⟩ (.number (-9223372036854775808.0))) ≠ initial.keyText (.number 1e19) := by
  have law := initial.keyText_whole (v := .shadow ⟨0⟩ ⟨0⟩ (.number (-9223372036854775808.0))) rfl holds_least
    (by decide)
  refine ⟨holds_least, holds_tenPow19, law.1.trans (law.2.1.mpr (by decide)), fun same => ?_⟩
  have shared := (law.2.2 (.number 1e19) _ _ rfl holds_tenPow19 (by decide)).1.mp same
  unfold SharesText at shared
  omega

theorem holds_tenPow20 : Holds 1e20 (10 ^ 20) := by
  have shape : Binary64.ofFloat 1e20 = .finite false 6103515625000000 14 := by decide +kernel
  exact holds_of_ofFloat shape (by norm_num)

/-- Two numbers are written with the same digits, which neither of them has. -/
theorem keyText_collision : Holds 1e19 (10 ^ 19) ∧ Holds 1e20 (10 ^ 20) ∧ (10 ^ 20 : Int).natAbs < 10 ^ 21 ∧
    initial.keyText (.number 1e19) = "9223372036854775807" ∧
    initial.keyText (.number 1e20) = "9223372036854775807" ∧
    toString (10 ^ 19 : Int) = "10000000000000000000" ∧ toString (10 ^ 20 : Int) = "100000000000000000000" :=
  ⟨holds_tenPow19, holds_tenPow20, by decide, by decide +kernel, by decide +kernel, by decide +kernel,
    by decide +kernel⟩

end Heap

end ShadowTaint
