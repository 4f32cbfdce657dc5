import JsonProjection.Number.Decimal
import Mathlib.Algebra.Order.Field.Power
import Mathlib.Data.Nat.Log
import Mathlib.Data.Rat.Cast.Order
import Mathlib.Tactic.Linarith
import Mathlib.Tactic.NormNum
import Mathlib.Tactic.Positivity
import Mathlib.Tactic.Ring

/-!
Which numbers round to a finite double.

Half way between the greatest finite double and `2 ^ 1024` stands `2 ^ 1024 - 2 ^ 970`, and a tie
goes away from the odd code below it. So a decimal is read as a finite double just below that bound.
-/

namespace JsonProjection
namespace Binary64

/-! ### Rounding to whole numbers -/

theorem le_roundDiv (numerator denominator : Nat) :
    numerator / denominator ≤ roundDiv numerator denominator := by
  unfold roundDiv
  dsimp only
  split <;> omega

theorem roundDiv_le {numerator denominator bound : Nat}
    (below : numerator < bound * denominator) : roundDiv numerator denominator ≤ bound := by
  have quotient : numerator / denominator < bound :=
    Nat.div_lt_of_lt_mul (Nat.mul_comm bound denominator ▸ below)
  unfold roundDiv
  dsimp only
  split <;> omega

theorem roundDiv_le_iff {numerator denominator bound : Nat} (positive : 0 < denominator)
    (odd : bound % 2 = 1) :
    roundDiv numerator denominator ≤ bound ↔ 2 * numerator < (2 * bound + 1) * denominator := by
  have split := Nat.div_add_mod numerator denominator
  have remainder := Nat.mod_lt numerator positive
  have expand : (2 * bound + 1) * denominator = 2 * (denominator * bound) + denominator := by ring
  have least := le_roundDiv numerator denominator
  rcases Nat.lt_trichotomy bound (numerator / denominator) with above | same | below
  · have product : denominator * (bound + 1) ≤ denominator * (numerator / denominator) :=
      Nat.mul_le_mul_left denominator above
    rw [Nat.mul_add, Nat.mul_one] at product
    omega
  · rw [← same] at split
    unfold roundDiv
    simp only [← same, odd, Bool.or_eq_true, Bool.and_eq_true, beq_iff_eq, decide_eq_true_iff,
      and_true]
    split_ifs <;> omega
  · have product : denominator * (numerator / denominator + 1) ≤ denominator * bound :=
      Nat.mul_le_mul_left denominator below
    rw [Nat.mul_add, Nat.mul_one] at product
    have few : roundDiv numerator denominator ≤ bound := by
      apply roundDiv_le
      rw [Nat.mul_comm]
      omega
    omega

/-! ### Finite codes -/

theorem unitsOfOne_eq : unitsOfOne = 2 ^ 1074 := by
  unfold unitsOfOne
  generalize 1074 = exponent
  exact Nat.pow_eq

/-- How far apart the doubles next to a ratio of units lie, as a power of two. -/
def gap (numerator denominator : Nat) : Nat :=
  Nat.log2 (numerator / denominator) - 52

section

variable {numerator denominator : Nat}

theorem lt_gap (positive : 0 < denominator) :
    numerator < 2 ^ 53 * (denominator * 2 ^ gap numerator denominator) := by
  have wide : 2 ^ (Nat.log2 (numerator / denominator) + 1) ≤
      2 ^ (53 + gap numerator denominator) :=
    Nat.pow_le_pow_right Nat.two_pos (by unfold gap; omega)
  have quotient : numerator / denominator + 1 ≤ 2 ^ (53 + gap numerator denominator) :=
    Nat.le_trans Nat.lt_log2_self wide
  calc numerator < denominator * (numerator / denominator + 1) :=
        Nat.lt_mul_div_succ numerator positive
    _ ≤ denominator * 2 ^ (53 + gap numerator denominator) :=
        Nat.mul_le_mul_left denominator quotient
    _ = 2 ^ 53 * (denominator * 2 ^ gap numerator denominator) := by
        rw [Nat.pow_add]
        ring

theorem gap_le (wide : 0 < gap numerator denominator) :
    2 ^ 52 * (denominator * 2 ^ gap numerator denominator) ≤ numerator := by
  have log : 52 + gap numerator denominator = Nat.log2 (numerator / denominator) := by
    unfold gap at *
    omega
  have some : numerator / denominator ≠ 0 := by
    intro zero
    rw [zero, show Nat.log2 0 = 0 by decide] at log
    omega
  have quotient : 2 ^ (52 + gap numerator denominator) ≤ numerator / denominator :=
    log ▸ Nat.log2_self_le some
  calc 2 ^ 52 * (denominator * 2 ^ gap numerator denominator) =
        denominator * 2 ^ (52 + gap numerator denominator) := by
        rw [Nat.pow_add]
        ring
    _ ≤ denominator * (numerator / denominator) := Nat.mul_le_mul_left denominator quotient
    _ ≤ numerator := Nat.mul_div_le numerator denominator

theorem codeOfUnits_lt_iff (positive : 0 < denominator) :
    codeOfUnits numerator denominator < infinityCode ↔
      numerator < (2 ^ 54 - 1) * (denominator * 2 ^ 2044) := by
  have below : numerator < 2 ^ 53 * (denominator * 2 ^ gap numerator denominator) :=
    lt_gap positive
  have above : 0 < gap numerator denominator →
      2 ^ 52 * (denominator * 2 ^ gap numerator denominator) ≤ numerator := gap_le
  have code : codeOfUnits numerator denominator = gap numerator denominator * 2 ^ 52 +
      roundDiv numerator (denominator * 2 ^ gap numerator denominator) := rfl
  have infinity : infinityCode = 2047 * 2 ^ 52 := rfl
  rw [code, infinity]
  generalize gap numerator denominator = shift at *
  have scaled : 0 < denominator * 2 ^ shift := Nat.mul_pos positive (Nat.two_pow_pos shift)
  have double (exponent : Nat) :
      denominator * 2 ^ (exponent + 1) = 2 * (denominator * 2 ^ exponent) := by
    rw [pow_succ, ← Nat.mul_assoc, Nat.mul_comm]
  rcases Nat.lt_trichotomy shift (2044 + 1) with low | same | high
  · -- Every code of a smaller exponent is finite.
    have few := roundDiv_le below
    have narrow : denominator * 2 ^ shift ≤ denominator * 2 ^ 2044 :=
      Nat.mul_le_mul_left denominator (pow_le_pow_right₀ one_le_two (Nat.le_of_lt_succ low))
    generalize denominator * 2 ^ 2044 = step at *
    generalize denominator * 2 ^ shift = finer at *
    omega
  · -- The greatest finite code is odd.
    have tie : roundDiv numerator (denominator * 2 ^ shift) ≤ 2 ^ 53 - 1 ↔
        2 * numerator < (2 * (2 ^ 53 - 1) + 1) * (denominator * 2 ^ shift) :=
      roundDiv_le_iff scaled (by decide)
    have twice : denominator * 2 ^ shift = 2 * (denominator * 2 ^ 2044) := same ▸ double 2044
    generalize denominator * 2 ^ 2044 = step at *
    generalize denominator * 2 ^ shift = own at *
    omega
  · -- The leading digit alone makes up the code of infinity.
    have whole := above (Nat.zero_lt_of_lt high)
    have least := (Nat.le_div_iff_mul_le scaled).mpr whole
    have rounded := Nat.le_trans least (le_roundDiv numerator (denominator * 2 ^ shift))
    have wide : denominator * 2 ^ (2044 + 1 + 1) ≤ denominator * 2 ^ shift :=
      Nat.mul_le_mul_left denominator (pow_le_pow_right₀ one_le_two high)
    rw [double, double] at wide
    generalize denominator * 2 ^ 2044 = step at *
    generalize denominator * 2 ^ shift = coarser at *
    omega

end

/-- The middle between the greatest finite double and the power of two above it. -/
def overflow : ℚ :=
  2 ^ 1024 - 2 ^ 970

theorem overflow_eq : overflow = (2 ^ 54 - 1) * 2 ^ 970 := by
  rw [overflow, sub_mul, one_mul, ← pow_add]

theorem one_lt_overflow : 1 < overflow := by
  rw [overflow_eq]
  calc (1 : ℚ) < 2 ^ 54 - 1 := by norm_num
    _ ≤ (2 ^ 54 - 1) * 2 ^ 970 :=
        le_mul_of_one_le_right (by norm_num) (one_le_pow₀ (by norm_num))

theorem isFinite_ofRatio {numerator denominator : Nat} (positive : 0 < denominator) :
    (ofRatio numerator denominator).isFinite = true ↔
      (numerator : ℚ) / denominator < overflow := by
  have cancel : numerator * 2 ^ 1074 < (2 ^ 54 - 1) * (denominator * 2 ^ 2044) ↔
      numerator < (2 ^ 54 - 1) * 2 ^ 970 * denominator := by
    have regroup (a b c d : Nat) : a * (d * (b * c)) = a * b * d * c := by ring
    rw [show 2044 = 970 + 1074 from rfl, pow_add, regroup]
    exact Nat.mul_lt_mul_right (pow_pos two_pos 1074)
  have whole : overflow = ((2 ^ 54 - 1) * 2 ^ 970 : Nat) := by
    rw [overflow_eq, Nat.cast_mul, Nat.cast_pow, Nat.cast_sub Nat.one_le_two_pow]
    norm_num only [Nat.cast_pow, Nat.cast_one, Nat.cast_ofNat]
  have cast : (numerator : ℚ) / denominator < overflow ↔
      numerator < (2 ^ 54 - 1) * 2 ^ 970 * denominator := by
    rw [whole, div_lt_iff₀ (Nat.cast_pos.mpr positive), ← Nat.cast_mul, Nat.cast_lt]
  rw [cast, ← cancel, isFinite, decide_eq_true_iff, ofRatio, unitsOfOne_eq]
  dsimp only
  rw [min_lt_iff, or_iff_left (Nat.lt_irrefl _)]
  exact codeOfUnits_lt_iff positive

end Binary64

namespace Decimal

/-! ### Decimals -/

def magnitude (d : Decimal) : ℚ :=
  d.significand * 10 ^ d.exponent

theorem lt_ten_pow (n : Nat) : n < 10 ^ (Nat.log2 n / 3 + 1) :=
  calc n < 2 ^ (Nat.log2 n + 1) := Nat.lt_log2_self
    _ ≤ 2 ^ (3 * (Nat.log2 n / 3 + 1)) := Nat.pow_le_pow_right Nat.two_pos (by omega)
    _ = 8 ^ (Nat.log2 n / 3 + 1) := Nat.pow_mul 2 3 _
    _ ≤ 10 ^ (Nat.log2 n / 3 + 1) := Nat.pow_le_pow_left (by decide) _

theorem overflow_le_magnitude {d : Decimal} (some : d.significand ≠ 0)
    (large : 310 ≤ d.exponent) : Binary64.overflow ≤ d.magnitude := by
  have power : (2 : ℚ) ^ 1024 ≤ 10 ^ 310 := by
    have : 2 ^ 1024 ≤ 10 ^ 310 := by decide +kernel
    exact_mod_cast this
  have bound : (10 : ℚ) ^ 310 ≤ 10 ^ d.exponent :=
    zpow_le_zpow_right₀ (by norm_num : (1 : ℚ) ≤ 10) large
  have factor : (1 : ℚ) ≤ d.significand := by exact_mod_cast Nat.one_le_iff_ne_zero.mpr some
  have positive : (0 : ℚ) < 2 ^ 970 := by positivity
  have product : (10 : ℚ) ^ d.exponent ≤ d.significand * 10 ^ d.exponent :=
    le_mul_of_one_le_left (by positivity) factor
  calc Binary64.overflow ≤ 2 ^ 1024 := sub_le_self _ positive.le
    _ ≤ 10 ^ 310 := power
    _ ≤ 10 ^ d.exponent := bound
    _ ≤ d.magnitude := product

theorem magnitude_lt_one {d : Decimal}
    (small : d.exponent + (Nat.log2 d.significand / 3 + 1 : Nat) < -330) : d.magnitude < 1 := by
  have significand : (d.significand : ℚ) < 10 ^ (Nat.log2 d.significand / 3 + 1) := by
    exact_mod_cast lt_ten_pow d.significand
  have power : (0 : ℚ) < 10 ^ d.exponent := by positivity
  calc d.magnitude < 10 ^ (Nat.log2 d.significand / 3 + 1) * 10 ^ d.exponent :=
        mul_lt_mul_of_pos_right significand power
    _ = 10 ^ (d.exponent + (Nat.log2 d.significand / 3 + 1 : Nat)) := by
        rw [← zpow_natCast, ← zpow_add₀ (by norm_num), add_comm]
    _ ≤ 1 := zpow_le_one_of_nonpos₀ (by norm_num) (by omega)

/-- The decimals below the bound, and no others, are read as finite doubles. -/
theorem isFinite_toBinary64 (d : Decimal) :
    d.toBinary64.isFinite = true ↔ d.magnitude < Binary64.overflow := by
  unfold toBinary64
  dsimp only
  split_ifs with zero large small whole
  · have value : d.magnitude = 0 := by rw [magnitude, zero, Nat.cast_zero, zero_mul]
    have bound := Binary64.one_lt_overflow
    exact iff_of_true rfl (by linarith)
  · have bound := overflow_le_magnitude zero large
    exact iff_of_false Bool.false_ne_true (not_lt.mpr bound)
  · have bound := Binary64.one_lt_overflow
    exact iff_of_true rfl ((magnitude_lt_one small).trans bound)
  · have value : d.magnitude =
        ((d.significand * Nat.pow 10 d.exponent.toNat : Nat) : ℚ) / (1 : Nat) := by
      rw [Nat.cast_one, div_one, magnitude, Nat.cast_mul, Nat.pow_eq, Nat.cast_pow,
        ← zpow_natCast, Int.toNat_of_nonneg whole]
      rfl
    rw [value]
    exact Binary64.isFinite_ofRatio Nat.one_pos
  · have value : d.magnitude = (d.significand : ℚ) / (Nat.pow 10 (-d.exponent).toNat : Nat) := by
      rw [magnitude, Nat.pow_eq, Nat.cast_pow, ← zpow_natCast, Int.toNat_of_nonneg (by omega),
        zpow_neg, div_inv_eq_mul]
      rfl
    rw [value]
    exact Binary64.isFinite_ofRatio (Nat.pow_pos (by decide))

end Decimal
end JsonProjection
