import Seam.Proofs.Nearest
import Seam.Proofs.Scientific

/-!
Numbers of 64 bits that are written and read again. Rounding to places is that of the
exact number (`Binary64.rounded_of_isFinite`), so what is written for a finite number is a
decimal off by half a unit of its last place at most (`Binary64.abs_toReal_sub_written`), and
the number that is nearest to this decimal is written in the same way
(`Binary64.Reads.written_eq`).
-/
namespace Seam

namespace Binary64

open Exact (nearest)
open Float.Model (UnpackedFloat)
open Float.Model.UnpackedFloat

private theorem halfEven_eq (num : ℕ) {den : ℕ} (positive : 0 < den) :
    Rounding.halfEven num den = nearest ((num : ℝ) / den) := by
  have unit : (0 : ℝ) < den := Nat.cast_pos.mpr positive
  have parts : (num : ℝ) / den - (num / den : ℕ) = (num % den : ℕ) / (den : ℝ) := sub_eq_of_eq_add' (div_eq_add_mod num positive)
  have less : 2 * (((num % den : ℕ) : ℝ) / den) < 1 ↔ 2 * (num % den) < den := by
    rw [mul_div, div_lt_one unit]
    exact_mod_cast Iff.rfl
  have tie : 2 * (((num % den : ℕ) : ℝ) / den) = 1 ↔ 2 * (num % den) = den := by
    rw [mul_div, div_eq_one_iff_eq unit.ne']
    exact_mod_cast Iff.rfl
  simp only [nearest, Nat.floor_div_eq_div, parts, less, tie, Rounding.halfEven, Bool.or_eq_true, Bool.and_eq_true,
    decide_eq_true_eq]

theorem rounded_of_isFinite {x : Float} (finite : Scalar.isFinite x = true) (places : ℕ) :
    Scalar.rounded places x =
      .finite ⟨negative x.toModel.unpack, nearest (magnitude x.toModel.unpack * (10 ^ places : ℕ)), -places⟩ := by
  have holds := holds_unpack finite
  have same : unpack x = x.toModel.unpack := rfl
  show rounded places x = _
  rw [rounded, same]
  generalize x.toModel.unpack = y at holds
  cases holds with
  | zero s => simp [magnitude, negative, Exact.nearest_zero]
  | @finite s m e positive =>
    obtain ⟨some, value⟩ := quotient_eq (m * Nat.pow 10 places) e
    have moved : magnitude (.finite s m e positive) * (10 ^ places : ℕ) = (m * Nat.pow 10 places : ℕ) * (2 : ℝ) ^ e := by
      show scaled m e * _ = _
      rw [scaled_eq, Nat.cast_mul, Nat.pow_eq]
      ring
    simp only [halfEven_eq _ some, value, moved, negative]

/-- The decimal that is written for a finite number, a zero without sign. -/
noncomputable def written (places : ℕ) (x : Float) : Decimal :=
  Decimal.unsignedZero ⟨negative x.toModel.unpack, nearest (magnitude x.toModel.unpack * (10 ^ places : ℕ)), -places⟩

variable {places : ℕ} {x y : Float}

theorem numeral_of_isFinite (finite : Scalar.isFinite x = true) (letter : Char) :
    Words.numeral letter x = .finite (written (Words.places letter) x) := by
  rw [Words.numeral, rounded_of_isFinite finite]
  rfl

private theorem abs_value_written (places : ℕ) (x : Float) :
    |(written places x).value| = nearest (magnitude x.toModel.unpack * (10 ^ places : ℕ)) / (10 ^ places : ℕ) := by
  have digits : (written places x).digits = nearest (magnitude x.toModel.unpack * (10 ^ places : ℕ)) := rfl
  have exponent : (written places x).exponent = -places := rfl
  rw [abs_value, digits, exponent, zpow_neg, zpow_natCast, div_eq_mul_inv, Nat.cast_pow, Nat.cast_ofNat]

/-- The decimal has the sign of the number, unless it is zero. -/
private theorem value_written (places : ℕ) (x : Float) :
    (written places x).value = (if negative x.toModel.unpack then -1 else 1) * |(written places x).value| := by
  by_cases none : nearest (magnitude x.toModel.unpack * (10 ^ places : ℕ)) = 0
  · have zero : |(written places x).value| = 0 := by rw [abs_value_written, none, Nat.cast_zero, zero_div]
    rw [zero, mul_zero, abs_eq_zero.mp zero]
  · have sign : (written places x).negative = negative x.toModel.unpack := by
      rw [written, Decimal.unsignedZero, bne_iff_ne.mpr none, Bool.and_true]
    rw [← sign]
    exact value_eq _

private theorem abs_sub_div_mul {a n u : ℝ} (positive : 0 < u) : |a - n / u| * u = |a * u - n| := by
  calc |a - n / u| * u = |(a - n / u) * u| := by rw [abs_mul, abs_of_pos positive]
    _ = |a * u - n| := by rw [sub_mul, div_mul_cancel₀ _ positive.ne']

/-- What is written is off by half a unit of the last place at most. -/
theorem abs_toReal_sub_written (places : ℕ) (x : Float) : |toReal x - (written places x).value| ≤ 1 / 2 / 10 ^ places := by
  have unit : (0 : ℝ) < (10 ^ places : ℕ) := by positivity
  have off := Exact.abs_nearest_sub_le (mul_nonneg (magnitude_nonneg x.toModel.unpack) unit.le)
  have power : (10 : ℝ) ^ places = (10 ^ places : ℕ) := by rw [Nat.cast_pow, Nat.cast_ofNat]
  rw [abs_toReal_sub (value_written places x), abs_value_written, power, le_div_iff₀ unit, abs_sub_div_mul unit, abs_sub_comm]
  exact off

private theorem Holds.magnitude_le {y : UnpackedFloat} (holds : Holds y) : magnitude y ≤ largest := by
  rw [largest, scaled_eq]
  cases holds with
  | zero s =>
    show (0 : ℝ) ≤ _
    positivity
  | @finite s m e positive fits bounded =>
    have factor : m ≤ 2 ^ 53 - 1 := Nat.le_sub_one_of_lt fits.small
    show scaled m e ≤ _
    rw [scaled_eq]
    gcongr
    norm_num

/-- A decimal that is written for a finite number is below the bound for overflow. -/
theorem abs_value_written_lt (finite : Scalar.isFinite x = true) (places : ℕ) : |(written places x).value| < overflow := by
  have off := abs_toReal_sub_written places x
  have bound := (holds_unpack finite).magnitude_le
  have low : 1 / 2 / (10 : ℝ) ^ places ≤ 1 / 2 := div_le_self (by norm_num) (one_le_pow₀ (by norm_num))
  have beyond := abs_sub_abs_le_abs_sub (written places x).value (toReal x)
  rw [abs_sub_comm _ (toReal x), abs_toReal] at beyond
  exact lt_overflow (by linarith)

/-- A number that is nearest to what is written for another is written like it. -/
theorem Reads.written_eq (finite : Scalar.isFinite x = true) (reads : Reads (written places x) y) :
    written places y = written places x := by
  have unit : (0 : ℝ) < (10 ^ places : ℕ) := by positivity
  have closer := reads.nearest x finite
  rw [abs_toReal_sub (by rw [reads.sign]; exact value_eq _), abs_toReal_sub (value_written places x), abs_value_written,
    ← mul_le_mul_iff_of_pos_right unit, abs_sub_div_mul unit, abs_sub_div_mul unit] at closer
  have same := Exact.nearest_eq_of_abs_le (mul_nonneg (magnitude_nonneg x.toModel.unpack) unit.le)
    (mul_nonneg (magnitude_nonneg y.toModel.unpack) unit.le) closer
  rw [written, same, reads.sign]
  simp [written, Decimal.unsignedZero]

end Binary64

end Seam
