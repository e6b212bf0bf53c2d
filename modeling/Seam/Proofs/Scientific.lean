import Seam.Proofs.Rounded

/-!
Decimals that are read as numbers of 64 bits. A decimal below the bound for overflow is read
as a number with its sign that no other is nearer to (`Binary64.reads_ofDecimal`), whether its
digits and its power of ten are words themselves or the whole quotient is rounded at once.
-/
namespace Seam.Binary64

open Float.Model (UnpackedFloat Format totalExponent)
open Float.Model.UnpackedFloat

/-- The real that a finite number is, zero for what is none. -/
noncomputable def toReal (x : Float) : ℝ :=
  (if negative x.toModel.unpack then -1 else 1) * magnitude x.toModel.unpack

theorem abs_toReal (x : Float) : |toReal x| = magnitude x.toModel.unpack := by
  rw [toReal, abs_mul, abs_of_nonneg (magnitude_nonneg _)]
  cases negative x.toModel.unpack <;> simp

/-- Numbers of one sign lie as far apart as without it. -/
theorem abs_toReal_sub {x : Float} {r : ℝ} (sign : r = (if negative x.toModel.unpack then -1 else 1) * |r|) :
    |toReal x - r| = |magnitude x.toModel.unpack - (|r|)| := by
  have unit : |(if negative x.toModel.unpack then (-1 : ℝ) else 1)| = 1 := by cases negative x.toModel.unpack <;> simp
  calc |toReal x - r| = |(if negative x.toModel.unpack then -1 else 1) * (magnitude x.toModel.unpack - (|r|))| := by
        rw [mul_sub, ← sign, toReal]
    _ = |magnitude x.toModel.unpack - (|r|)| := by rw [abs_mul, unit, one_mul]

/-- The number has the sign of the decimal, and no finite number is nearer to the decimal. -/
structure Reads (d : Decimal) (y : Float) : Prop where
  finite : Scalar.isFinite y = true
  sign : negative y.toModel.unpack = d.negative
  nearest : ∀ x : Float, Scalar.isFinite x = true → |toReal y - d.value| ≤ |toReal x - d.value|

private theorem rounds_round {m : ℕ} (positive : 0 < m) : Rounds .positive m (round Format.binary64 .positive m 0) := by
  show Rounds _ _ (roundWithAccuracy Format.binary64 _ (m <<< _) _ _)
  rw [targetExponent_eq, totalExponent, Nat.shiftLeft_eq]
  generalize shifts : (0 - max ((m.log2 : ℤ) + 1 + 0 - 53) (-1074)).toNat = k
  have exact : (m : ℝ) = (m * 2 ^ k : ℕ) * (2 : ℝ) ^ (0 - k : ℤ) := by
    rw [zero_sub, zpow_neg, zpow_natCast]
    push_cast
    field_simp
  rw [exact]
  refine rounds_roundWithAccuracy _ (by rfl) ?_
  by_cases least : 1074 ≤ k
  · exact .inl (by omega)
  · exact .inr (pow_le_mul_pow positive (by omega))

private theorem rounds_ofNat (m : ℕ) : Rounds .positive m (UnpackedFloat.ofNat Format.binary64 m) := by
  show Rounds _ _ (normalize Format.binary64 (m : ℤ) 0 .positive)
  rw [UnpackedFloat.normalize]
  split
  · next less =>
    have := Int.compare_eq_lt.mp less
    omega
  · next none =>
    obtain rfl : m = 0 := by exact_mod_cast Int.compare_eq_eq.mp none
    rw [Nat.cast_zero]
    exact .zero _
  · next more => exact rounds_round (by exact_mod_cast Int.compare_eq_gt.mp more)

/-- A whole number of at most 53 bits is a number of 64 bits. -/
private theorem unpack_toFloat {m : ℕ} (positive : 0 < m) (small : m < 2 ^ 53) :
    ∃ (m' : ℕ) (e : ℤ) (positive' : 0 < m'), m.toUInt64.toFloat.toModel.unpack = .finite .positive m' e positive' ∧
      m' * (2 : ℝ) ^ e = m := by
  have stored : m.toUInt64.toFloat.toModel = Float.Model.pack (UnpackedFloat.ofNat Format.binary64 m) := by
    show Float.Model.pack (UnpackedFloat.ofNat Format.binary64 (m % 2 ^ 64)) = _
    rw [Nat.mod_eq_of_lt (by omega)]
  have rounds := rounds_ofNat m
  have below : (m : ℝ) < overflow := by
    have bound : (m : ℝ) ≤ 2 ^ 53 := by exact_mod_cast small.le
    refine lt_overflow (le_add_of_le_of_nonneg (bound.trans ?_) (by norm_num))
    rw [largest, scaled_eq]
    calc (2 : ℝ) ^ 53 = 1 * (2 : ℝ) ^ (53 : ℤ) := by rw [one_mul, zpow_ofNat]
      _ ≤ ((2 ^ 53 - 1 : ℕ) : ℝ) * (2 : ℝ) ^ (971 : ℤ) := by
        gcongr <;> norm_num
  have kept := rounds.magnitude_eq (natCast_mem_grid small)
  rw [stored, unpack_pack (rounds.holds below)]
  rcases rounds.form with none | ⟨m', e, positive', same, _⟩
  · rw [none] at kept
    exact absurd (Nat.cast_eq_zero.mp kept.symm) positive.ne'
  · rw [same] at kept ⊢
    exact ⟨m', e, positive', rfl, (scaled_eq m' e).symm.trans kept⟩

/-- Is the number that power of ten? -/
def isPowerOfTen (k : ℕ) : UnpackedFloat → Bool
  | .finite .positive m e _ => decide (2 ^ 52 ≤ m) && (quotient m e).1 == 10 ^ k * (quotient m e).2
  | _ => false

theorem quotient_eq (m : ℕ) (e : ℤ) : 0 < (quotient m e).2 ∧ ((quotient m e).1 : ℝ) / (quotient m e).2 = m * (2 : ℝ) ^ e := by
  cases e with
  | ofNat k => exact ⟨Nat.one_pos, by simp [quotient]⟩
  | negSucc k => exact ⟨Nat.pow_pos (by decide), by simp [quotient, zpow_negSucc, div_eq_mul_inv]⟩

private theorem isPowerOfTen_table :
    ∀ k : Fin 23, isPowerOfTen k Float.exactlyRepresentablePowersOfTen[k].toModel.unpack = true := by
  decide +kernel

private theorem unpack_table {k : ℕ} (bounded : k < Float.exactlyRepresentablePowersOfTen.size) :
    ∃ (m : ℕ) (e : ℤ) (positive : 0 < m), (Float.exactlyRepresentablePowersOfTen[k]).toModel.unpack = .finite .positive m e positive ∧
      2 ^ 52 ≤ m ∧ m * (2 : ℝ) ^ e = 10 ^ k := by
  have check := isPowerOfTen_table ⟨k, bounded⟩
  change isPowerOfTen k (Float.exactlyRepresentablePowersOfTen[k]).toModel.unpack = true at check
  rw [isPowerOfTen.eq_def] at check
  split at check
  · next m e positive unpacked =>
    rw [Bool.and_eq_true, decide_eq_true_eq, beq_iff_eq] at check
    obtain ⟨some, value⟩ := quotient_eq m e
    refine ⟨m, e, positive, unpacked, check.1, ?_⟩
    rw [← value, check.2, div_eq_iff (by positivity)]
    push_cast
    rfl
  · cases check

/-- A number that is closer to zero than the least of all is rounded to zero. -/
private theorem rounds_zero (s : Sign) {x : ℝ} (nonneg : 0 ≤ x) (tiny : 2 * x ≤ (2 : ℝ) ^ (-1074 : ℤ)) :
    Rounds s x (.zero s) where
  form := .inl rfl
  nearest := by
    rintro w ⟨m, e, _, low, rfl⟩
    show |0 - x| ≤ _
    rcases Nat.eq_zero_or_pos m with rfl | positive
    · rw [scaled_eq, Nat.cast_zero, zero_mul]
    · have least : (2 : ℝ) ^ (-1074 : ℤ) ≤ scaled m e := by
        have factor : (1 : ℝ) ≤ m := by exact_mod_cast positive
        have power : (2 : ℝ) ^ (-1074 : ℤ) ≤ (2 : ℝ) ^ e := zpow_le_zpow_right₀ (by norm_num) low
        rw [scaled_eq]
        exact power.trans (le_mul_of_one_le_left (by positivity) factor)
      rw [zero_sub, abs_neg, abs_of_nonneg nonneg, abs_of_nonneg (by linarith)]
      linarith
  even := by
    have unit : (0 : ℝ) < (2 : ℝ) ^ (-1074 : ℤ) := by positivity
    have half : x / (2 : ℝ) ^ (-1074 : ℤ) ≤ 1 / 2 := (div_le_iff₀ unit).mpr (by linarith)
    have low : 0 ≤ x / (2 : ℝ) ^ (-1074 : ℤ) := div_nonneg nonneg unit.le
    have none : Exact.nearest (x / (2 : ℝ) ^ (-1074 : ℤ)) = 0 := by
      refine Exact.nearest_eq_of_near low ?_ (.inl rfl)
      rwa [Nat.cast_zero, sub_zero, abs_of_nonneg low]
    refine ⟨-1074, le_rfl, .inl rfl, half.trans_lt (by norm_num), ?_⟩
    rw [none, Nat.cast_zero, zero_mul]
    rfl

/-- Digits with a power of ten this large are too large for a word. -/
private theorem overflow_le {m : ℕ} {e : ℤ} (some : 0 < m) (high : 2 ^ 11 < e) : overflow ≤ m * (10 : ℝ) ^ e := by
  have factor : (1 : ℝ) ≤ m := by exact_mod_cast some
  have half : 0 ≤ scaled 1 970 := by
    rw [scaled_eq]
    positivity
  calc overflow ≤ scaled 1 1024 := by
        rw [← overflow_add]
        linarith
    _ = 2 ^ 1024 := by rw [scaled_eq, Nat.cast_one, one_mul, zpow_ofNat]
    _ ≤ 10 ^ 1024 := pow_le_pow_left₀ (by norm_num) (by norm_num) _
    _ = (10 : ℝ) ^ (1024 : ℤ) := (zpow_ofNat ..).symm
    _ ≤ (10 : ℝ) ^ e := zpow_le_zpow_right₀ (by norm_num) (by omega)
    _ ≤ m * (10 : ℝ) ^ e := le_mul_of_one_le_left (by positivity) factor

/-- Digits with a power of ten this small are closer to zero than to any other number. -/
private theorem tiny_of_lt {m : ℕ} {e : ℤ} (low : e < -(2 ^ 11 + (m.log2 : ℤ))) :
    2 * (m * (10 : ℝ) ^ e) ≤ (2 : ℝ) ^ (-1074 : ℤ) := by
  have factor : (m : ℝ) ≤ 2 ^ (m.log2 + 1) := by exact_mod_cast (Nat.lt_log2_self (n := m)).le
  have power : (10 : ℝ) ^ e ≤ (2 ^ (m.log2 + 2048))⁻¹ := by
    calc (10 : ℝ) ^ e ≤ (10 : ℝ) ^ (-(m.log2 + 2048 : ℕ) : ℤ) := zpow_le_zpow_right₀ (by norm_num) (by omega)
      _ = (10 ^ (m.log2 + 2048))⁻¹ := by rw [zpow_neg, zpow_natCast]
      _ ≤ (2 ^ (m.log2 + 2048))⁻¹ := inv_anti₀ (by positivity) (pow_le_pow_left₀ (by norm_num) (by norm_num) _)
  calc 2 * (m * (10 : ℝ) ^ e) ≤ 2 * (2 ^ (m.log2 + 1) * (2 ^ (m.log2 + 2048))⁻¹) := by gcongr
    _ = (2 : ℝ) ^ (-2046 : ℤ) := by
      rw [pow_add, pow_add, zpow_neg, zpow_ofNat]
      field_simp
    _ ≤ (2 : ℝ) ^ (-1074 : ℤ) := zpow_le_zpow_right₀ (by norm_num) (by norm_num)

private theorem rounds_ofScientific {m : ℕ} {e : ℤ} (below : m * (10 : ℝ) ^ e < overflow) :
    Rounds .positive (m * (10 : ℝ) ^ e) (UnpackedFloat.ofScientific Format.binary64 m e) := by
  rw [UnpackedFloat.ofScientific]
  split_ifs with none high low whole
  · rw [none, Nat.cast_zero, zero_mul]
    exact .zero _
  · exact absurd (overflow_le (Nat.pos_of_ne_zero none) high) (not_le.mpr below)
  · exact rounds_zero _ (by positivity) (tiny_of_lt low)
  · -- the digits are shifted beforehand, so that the product has the bits that rounding asks for
    obtain ⟨k, rfl⟩ := Int.eq_ofNat_of_zero_le whole
    have exact : (m : ℝ) * (10 : ℝ) ^ (k : ℤ) = (m <<< 53 : ℕ) * (2 : ℝ) ^ (-53 : ℤ) * ((10 ^ k : ℕ) * (2 : ℝ) ^ (0 : ℤ)) := by
      have unit : (2 : ℝ) ^ 53 ≠ 0 := by positivity
      rw [Nat.shiftLeft_eq, zpow_natCast, zpow_neg, zpow_ofNat, zpow_zero, Nat.cast_mul, Nat.cast_pow, Nat.cast_ofNat,
        mul_inv_cancel_right₀ unit]
      push_cast
      rw [mul_one]
    have positive : 0 < m <<< 53 := by
      rw [Nat.shiftLeft_eq]
      exact Nat.mul_pos (Nat.pos_of_ne_zero none) (by decide)
    have tens : 0 < 10 ^ k := Nat.pow_pos (by decide)
    have large : 2 ^ 52 ≤ m <<< 53 * 10 ^ k := by
      rw [Nat.shiftLeft_eq]
      calc 2 ^ 52 ≤ 1 * 2 ^ 53 * 1 := by norm_num
        _ ≤ m * 2 ^ 53 * 10 ^ k := by gcongr <;> omega
    rw [exact]
    exact @rounds_mul .positive .positive _ _ (-53) 0 positive tens large
  · obtain ⟨k, rfl⟩ : ∃ k : ℕ, e = -(k : ℤ) := ⟨(-e).toNat, by omega⟩
    have exact : (m : ℝ) * (10 : ℝ) ^ (-(k : ℤ)) = m * (2 : ℝ) ^ (0 : ℤ) / ((10 ^ k : ℕ) * (2 : ℝ) ^ (0 : ℤ)) := by
      rw [zpow_neg, zpow_natCast, zpow_zero, mul_one, mul_one]
      push_cast
      rfl
    simp only [neg_neg, Int.toNat_natCast]
    rw [exact]
    exact @rounds_div .positive .positive _ _ 0 0 (Nat.pos_of_ne_zero none) (Nat.pow_pos (by decide))

section
variable {m k : ℕ} (small : m < 2 ^ 53) (listed : k < Float.exactlyRepresentablePowersOfTen.size)

include small

private theorem rounds_mul_table :
    Rounds .positive (m * (10 : ℝ) ^ (k : ℤ)) (UnpackedFloat.mul Format.binary64 m.toUInt64.toFloat.toModel.unpack
      (Float.exactlyRepresentablePowersOfTen[k]).toModel.unpack) := by
  obtain ⟨m₂, e₂, positive₂, tens, some, value₂⟩ := unpack_table listed
  rw [tens]
  rcases Nat.eq_zero_or_pos m with rfl | positive
  · rw [Nat.cast_zero, zero_mul]
    exact .zero _
  · obtain ⟨m₁, e₁, positive₁, digits, value₁⟩ := unpack_toFloat positive small
    rw [digits, zpow_natCast, ← value₁, ← value₂]
    exact @rounds_mul .positive .positive _ _ _ _ positive₁ positive₂ (some.trans (Nat.le_mul_of_pos_left _ positive₁))

private theorem rounds_div_table :
    Rounds .positive (m * (10 : ℝ) ^ (-(k : ℤ))) (UnpackedFloat.div Format.binary64 m.toUInt64.toFloat.toModel.unpack
      (Float.exactlyRepresentablePowersOfTen[k]).toModel.unpack) := by
  obtain ⟨m₂, e₂, positive₂, tens, _, value₂⟩ := unpack_table listed
  rw [tens]
  rcases Nat.eq_zero_or_pos m with rfl | positive
  · rw [Nat.cast_zero, zero_mul]
    exact .zero _
  · obtain ⟨m₁, e₁, positive₁, digits, value₁⟩ := unpack_toFloat positive small
    rw [digits, zpow_neg, zpow_natCast, ← div_eq_mul_inv, ← value₁, ← value₂]
    exact @rounds_div .positive .positive _ _ _ _ positive₁ positive₂

end

/-- What digits and a power of ten are read as is the rounded number, also where both are words themselves. -/
private theorem exists_ofScientific (m k : ℕ) (minus : Bool)
    (below : m * (10 : ℝ) ^ (if minus then -(k : ℤ) else k) < overflow) :
    ∃ y, (Float.ofScientific m minus k).toModel = Float.Model.pack y ∧
      Rounds .positive (m * (10 : ℝ) ^ (if minus then -(k : ℤ) else k)) y := by
  rw [Float.ofScientific]
  split_ifs with small signed signed
  · exact ⟨_, rfl, rounds_div_table small.1 (Nat.lt_succ_iff.mpr small.2)⟩
  · exact ⟨_, rfl, rounds_mul_table small.1 (Nat.lt_succ_iff.mpr small.2)⟩
  · rw [if_pos signed] at below
    exact ⟨_, rfl, rounds_ofScientific below⟩
  · rw [if_neg signed] at below
    exact ⟨_, rfl, rounds_ofScientific below⟩

theorem abs_value (d : Decimal) : |d.value| = d.digits * (10 : ℝ) ^ d.exponent := by
  have nonneg : 0 ≤ d.digits * (10 : ℝ) ^ d.exponent := by positivity
  rw [Decimal.value, mul_assoc]
  cases d.negative
  · simp only [Bool.false_eq_true, ↓reduceIte, one_mul, abs_of_nonneg nonneg]
  · simp only [↓reduceIte, neg_one_mul, abs_neg, abs_of_nonneg nonneg]

private theorem exists_ofDecimal (d : Decimal) (below : |d.value| < overflow) :
    ∃ y, ofDecimal d = (if d.negative then -(Float.ofModel (Float.Model.pack y)) else Float.ofModel (Float.Model.pack y)) ∧
      Rounds .positive |d.value| y := by
  rw [abs_value] at below ⊢
  obtain ⟨negative, digits, exponent⟩ := d
  rw [ofDecimal]
  cases exponent with
  | ofNat k =>
    obtain ⟨y, same, rounds⟩ := exists_ofScientific digits k false below
    exact ⟨y, by rw [← same], rounds⟩
  | negSucc k =>
    obtain ⟨y, same, rounds⟩ := exists_ofScientific digits (k + 1) true below
    exact ⟨y, by rw [← same], rounds⟩

theorem value_eq (d : Decimal) : d.value = (if d.negative then -1 else 1) * |d.value| := by
  rw [abs_value, Decimal.value, mul_assoc]

theorem Holds.neg {y : UnpackedFloat} (holds : Holds y) : Holds y.neg := by
  cases holds with
  | zero s => exact .zero _
  | finite s positive fits bounded => exact .finite _ positive fits bounded

private theorem magnitude_neg (y : UnpackedFloat) : magnitude y.neg = magnitude y := by cases y <;> rfl

private theorem Holds.negative_neg {y : UnpackedFloat} (holds : Holds y) : negative y.neg = !negative y := by
  cases holds with
  | zero s => cases s <;> rfl
  | finite s => cases s <;> rfl

theorem Holds.isFinite {y : UnpackedFloat} (holds : Holds y) : y.isFinite = true := by cases holds <;> rfl

/-- What a decimal is read as, apart from the sign. -/
theorem unpack_ofDecimal {d : Decimal} (below : |d.value| < overflow) :
    ∃ y, Holds (ofDecimal d).toModel.unpack ∧ negative (ofDecimal d).toModel.unpack = d.negative ∧
      magnitude (ofDecimal d).toModel.unpack = magnitude y ∧ Rounds .positive |d.value| y := by
  obtain ⟨y, same, rounds⟩ := exists_ofDecimal d below
  have holds := rounds.holds below
  have plus : negative y = false := rounds.negative_eq
  refine ⟨y, ?_⟩
  rw [same]
  cases d.negative with
  | false =>
    show Holds (Float.Model.pack y).unpack ∧ negative (Float.Model.pack y).unpack = false ∧
      magnitude (Float.Model.pack y).unpack = magnitude y ∧ _
    rw [unpack_pack holds]
    exact ⟨holds, plus, rfl, rounds⟩
  | true =>
    show Holds (Float.Model.pack (Float.Model.pack y).unpack.neg).unpack ∧
      negative (Float.Model.pack (Float.Model.pack y).unpack.neg).unpack = true ∧
        magnitude (Float.Model.pack (Float.Model.pack y).unpack.neg).unpack = magnitude y ∧ _
    rw [unpack_pack holds, unpack_pack holds.neg]
    exact ⟨holds.neg, by rw [holds.negative_neg, plus]; rfl, magnitude_neg y, rounds⟩

/-- A decimal below the bound for overflow is read as the number nearest to it. -/
theorem reads_ofDecimal {d : Decimal} (below : |d.value| < overflow) : Reads d (ofDecimal d) := by
  obtain ⟨y, holds, sign, same, rounds⟩ := unpack_ofDecimal below
  refine ⟨holds.isFinite, sign, fun x finite => ?_⟩
  calc |toReal (ofDecimal d) - d.value| = |magnitude y - (|d.value|)| := by
        rw [abs_toReal_sub (by rw [sign]; exact value_eq d), same]
    _ ≤ |magnitude x.toModel.unpack - (|d.value|)| := rounds.nearest _ (magnitude_mem_grid (holds_unpack finite))
    _ = |(|toReal x| - |d.value|)| := by rw [abs_toReal]
    _ ≤ |toReal x - d.value| := abs_abs_sub_abs_le ..

end Seam.Binary64
