import Seam.Proofs.Exact
import Seam.Proofs.Spelling

/-!
Rounding reals to places. A real that is written with some places and read again is the
nearest one with so many places (`Exact.ofNumeral_numeral`): it is off by half a unit of
the last place at most, stays what it is if it has no more places, and never overtakes
another that is rounded alike (`Exact.abs_roundTo_sub_le`, `Exact.roundTo_eq_self`,
`Exact.roundTo_mono`).
-/
namespace Seam.Exact

theorem abs_nearest_sub_le {x : ℝ} (nonneg : 0 ≤ x) : |(nearest x : ℝ) - x| ≤ 1 / 2 := by
  have low := Nat.floor_le nonneg
  have high := Nat.lt_floor_add_one x
  rw [abs_le, nearest]
  split_ifs with near
  · rcases near with less | ⟨tie, _⟩ <;> constructor <;> linarith
  · rw [not_or] at near
    have far := not_lt.mp near.1
    push_cast
    constructor <;> linarith

private theorem floor_le_nearest (x : ℝ) : ⌊x⌋₊ ≤ nearest x ∧ nearest x ≤ ⌊x⌋₊ + 1 := by
  rw [nearest]
  split <;> omega

private theorem nearest_natCast (n : ℕ) : nearest n = n := by
  rw [nearest, Nat.floor_natCast]
  simp

/-- Which reals are rounded to a whole number. -/
theorem nearest_eq_iff {x : ℝ} (nonneg : 0 ≤ x) {n : ℕ} :
    nearest x = n ↔ |x - n| < 1 / 2 ∨ |x - n| = 1 / 2 ∧ n % 2 = 0 := by
  have low := Nat.floor_le nonneg
  have high := Nat.lt_floor_add_one x
  have rounded : |x - nearest x| < 1 / 2 ∨ |x - nearest x| = 1 / 2 ∧ nearest x % 2 = 0 := by
    rw [nearest]
    split_ifs with near
    · rw [abs_of_nonneg (by linarith)]
      refine near.imp (fun less => by linarith) (fun tie => ⟨by linarith [tie.1], tie.2⟩)
    · rw [not_or, not_lt, not_and] at near
      push_cast
      rw [abs_of_nonpos (by linarith)]
      rcases lt_or_eq_of_le near.1 with more | tie
      · exact .inl (by linarith)
      · exact .inr ⟨by linarith, by have := near.2 tie.symm; omega⟩
  refine ⟨fun same => same ▸ rounded, fun close => ?_⟩
  -- two whole numbers that close are both even, and so they are not next to each other
  by_contra differ
  have apart : (1 : ℝ) ≤ |(nearest x : ℝ) - n| := by
    have : (1 : ℤ) ≤ |(nearest x : ℤ) - n| := Int.one_le_abs (by omega)
    exact_mod_cast this
  have triangle := abs_sub_le (nearest x : ℝ) x n
  rw [abs_sub_comm (nearest x : ℝ) x] at triangle
  rcases rounded with less | ⟨tie, even⟩
  · rcases close with less' | ⟨tie', _⟩ <;> linarith
  · rcases close with less' | ⟨tie', even'⟩
    · linarith
    · have next : |(nearest x : ℝ) - n| ≤ 1 := by linarith
      have : |(nearest x : ℤ) - n| ≤ 1 := by exact_mod_cast next
      rw [abs_le] at this
      omega

/-- What is not farther than half a unit from a whole number is rounded to it, a tie only if it is even. -/
theorem nearest_eq_of_near {x : ℝ} (nonneg : 0 ≤ x) {n : ℕ} (near : |x - n| ≤ 1 / 2)
    (strict : n % 2 = 0 ∨ |x - n| < 1 / 2) : nearest x = n := by
  rw [nearest_eq_iff nonneg]
  rcases strict with even | less
  · exact (lt_or_eq_of_le near).imp_right fun tie => ⟨tie, even⟩
  · exact .inl less

/-- What is no further from the rounded number than a real is rounded like it. -/
theorem nearest_eq_of_abs_le {a b : ℝ} (nonneg : 0 ≤ a) (nonneg' : 0 ≤ b) (closer : |b - nearest a| ≤ |a - nearest a|) :
    nearest b = nearest a := by
  rw [nearest_eq_iff nonneg']
  rcases (nearest_eq_iff nonneg).mp rfl with less | ⟨tie, even⟩
  · exact .inl (closer.trans_lt less)
  · exact (lt_or_eq_of_le (closer.trans tie.le)).imp_right fun same => ⟨same, even⟩

/-- A real is rounded down if it is less than half a unit above a whole number, or half a unit above an even one. -/
private theorem nearest_le_iff {x : ℝ} (nonneg : 0 ≤ x) :
    (nearest x : ℝ) ≤ x ↔ Int.fract x < 1 / 2 ∨ Int.fract x = 1 / 2 ∧ Even ⌊x⌋ := by
  have low := Nat.floor_le nonneg
  have high := Nat.lt_floor_add_one x
  have whole : ⌊x⌋ = (⌊x⌋₊ : ℤ) := (Int.natCast_floor_eq_floor nonneg).symm
  have part : Int.fract x = x - ⌊x⌋₊ := by rw [Int.fract, whole, Int.cast_natCast]
  rw [part, whole, Int.even_coe_nat, Nat.even_iff, nearest]
  split_ifs with near
  · exact iff_of_true low (near.imp (fun less => by linarith) fun tie => ⟨by linarith [tie.1], tie.2⟩)
  · push_cast
    refine iff_of_false (not_le.mpr high) fun close => near ?_
    exact close.imp (fun less => by linarith) fun tie => ⟨by linarith [tie.1], tie.2⟩

private theorem nearest_mono {x y : ℝ} (le : x ≤ y) : nearest x ≤ nearest y := by
  have bounds := floor_le_nearest x
  have bounds' := floor_le_nearest y
  rcases lt_or_eq_of_le (Nat.floor_mono le) with less | same
  · omega
  -- with the same whole part, what is rounded down takes everything below it along
  · by_cases down : nearest y = ⌊y⌋₊
    · suffices nearest x = ⌊x⌋₊ by omega
      have near : 2 * (y - ⌊y⌋₊) < 1 ∨ 2 * (y - ⌊y⌋₊) = 1 ∧ ⌊y⌋₊ % 2 = 0 := by
        by_contra far
        rw [nearest, if_neg far] at down
        omega
      rw [nearest, if_pos]
      rw [← same] at near
      rcases near with less | ⟨tie, even⟩
      · exact .inl (by linarith)
      · rcases lt_or_eq_of_le le with less | rfl
        · exact .inl (by linarith)
        · exact .inr ⟨tie, even⟩
    · omega

/-- The real with so many places that is nearest to a real, a tie to the even one. -/
noncomputable def roundTo (places : ℕ) (r : ℝ) : ℝ :=
  (if r < 0 then -1 else 1) * nearest (|r| * (10 ^ places : ℕ)) / (10 ^ places : ℕ)

variable {places : ℕ} {r s : ℝ}

private theorem roundTo_of_nonneg (nonneg : 0 ≤ r) : roundTo places r = nearest (r * 10 ^ places) / 10 ^ places := by
  rw [roundTo, if_neg (not_lt.mpr nonneg), abs_of_nonneg nonneg, one_mul, Nat.cast_pow, Nat.cast_ofNat]

theorem nearest_zero : nearest 0 = 0 := by simpa using nearest_natCast 0

private theorem roundTo_neg (places : ℕ) (r : ℝ) : roundTo places (-r) = -roundTo places r := by
  rcases lt_trichotomy r 0 with negative | rfl | positive
  · rw [roundTo, roundTo, if_neg (by linarith), if_pos negative, abs_neg]
    ring
  · simp [roundTo, nearest_zero]
  · rw [roundTo, roundTo, if_pos (by linarith), if_neg (by linarith), abs_neg]
    ring

/-- Which reals below zero are not lowered by rounding. -/
theorem le_roundTo_iff (nonpos : r ≤ 0) : r ≤ roundTo places r ↔
    Int.fract (-r * 10 ^ places) < 1 / 2 ∨ Int.fract (-r * 10 ^ places) = 1 / 2 ∧ Even ⌊-r * 10 ^ places⌋ := by
  have unit : (0 : ℝ) < 10 ^ places := by positivity
  have raised : 0 ≤ -r := neg_nonneg.mpr nonpos
  have mirrored : roundTo places r = -roundTo places (-r) := by rw [roundTo_neg, neg_neg]
  rw [← nearest_le_iff (mul_nonneg raised unit.le), mirrored, le_neg, roundTo_of_nonneg raised, div_le_iff₀ unit]

private theorem roundTo_nonneg (nonneg : 0 ≤ r) : 0 ≤ roundTo places r := by
  rw [roundTo_of_nonneg nonneg]
  positivity

/-- Rounding is off by half a unit of the last place at most. -/
theorem abs_roundTo_sub_le (places : ℕ) (r : ℝ) : |roundTo places r - r| ≤ 1 / 2 / 10 ^ places := by
  have unit : (0 : ℝ) < 10 ^ places := by positivity
  have positive {r : ℝ} (nonneg : 0 ≤ r) : |roundTo places r - r| ≤ 1 / 2 / 10 ^ places := by
    have off := abs_nearest_sub_le (mul_nonneg nonneg unit.le)
    have scaled : roundTo places r - r = (nearest (r * 10 ^ places) - r * 10 ^ places) / 10 ^ places := by
      rw [roundTo_of_nonneg nonneg, sub_div, mul_div_cancel_right₀ _ unit.ne']
    rw [scaled, abs_div, abs_of_pos unit]
    exact div_le_div_of_nonneg_right off unit.le
  rcases le_total 0 r with nonneg | nonpos
  · exact positive nonneg
  · have mirrored := positive (neg_nonneg.mpr nonpos)
    rwa [roundTo_neg, neg_sub_neg, abs_sub_comm] at mirrored

theorem roundTo_eq_self (whole : ∃ n : ℤ, r = n / 10 ^ places) : roundTo places r = r := by
  have unit : (10 : ℝ) ^ places ≠ 0 := by positivity
  have natural (n : ℕ) : roundTo places (n / 10 ^ places) = n / 10 ^ places := by
    rw [roundTo_of_nonneg (by positivity), div_mul_cancel₀ _ unit, nearest_natCast]
  obtain ⟨n, rfl⟩ := whole
  obtain ⟨k, rfl | rfl⟩ := Int.eq_nat_or_neg n
  · exact natural k
  · rw [Int.cast_neg, Int.cast_natCast, neg_div, roundTo_neg, natural]

@[simp] theorem roundTo_zero (places : ℕ) : roundTo places 0 = 0 := roundTo_eq_self ⟨0, by simp⟩

theorem roundTo_mono (places : ℕ) : Monotone (roundTo places) := by
  have unit : (0 : ℝ) < 10 ^ places := by positivity
  have positive {r s : ℝ} (nonneg : 0 ≤ r) (le : r ≤ s) : roundTo places r ≤ roundTo places s := by
    rw [roundTo_of_nonneg nonneg, roundTo_of_nonneg (nonneg.trans le)]
    refine div_le_div_of_nonneg_right ?_ unit.le
    exact Nat.cast_le.mpr (nearest_mono (mul_le_mul_of_nonneg_right le unit.le))
  intro r s le
  rcases le_total 0 r with nonneg | nonpos
  · exact positive nonneg le
  · rcases le_total 0 s with nonneg' | nonpos'
    · have low : 0 ≤ roundTo places (-r) := roundTo_nonneg (neg_nonneg.mpr nonpos)
      rw [roundTo_neg] at low
      exact (neg_nonneg.mp low).trans (roundTo_nonneg nonneg')
    · have mirrored := positive (neg_nonneg.mpr nonpos') (neg_le_neg le)
      rwa [roundTo_neg, roundTo_neg, neg_le_neg_iff] at mirrored

/-- A real that is written is read as the nearest one with the places of its letter. -/
theorem ofNumeral_numeral (letter : Char) (r : ℝ) :
    Scalar.ofNumeral (Words.numeral letter (real r)) = real (roundTo (Words.places letter) r) := by
  show real (Decimal.value ⟨decide (r < 0) && nearest (|r| * 10 ^ Words.places letter) != 0,
    nearest (|r| * 10 ^ Words.places letter), -Words.places letter⟩) = _
  rw [Decimal.value, roundTo, zpow_neg, zpow_natCast, div_eq_mul_inv, Nat.cast_pow, Nat.cast_ofNat]
  by_cases zero : nearest (|r| * 10 ^ Words.places letter) = 0
  · simp [zero]
  · by_cases negative : r < 0 <;> simp [zero, negative]

end Seam.Exact
