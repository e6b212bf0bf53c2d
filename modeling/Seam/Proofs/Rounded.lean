import Seam.Proofs.Canonical
import Seam.Proofs.Nearest

/-!
Correct rounding. The accuracy that is carried along with a whole factor says where the exact
result lies between it and the next (`Binary64.Locates`), and shifting keeps that true. So what
a product or a quotient is rounded to is nearest to the exact result among all numbers that a
word can hold (`Binary64.rounds_mul`, `Binary64.rounds_div`), whatever becomes of a tie, and a
result below the bound for overflow is stored as it is (`Binary64.Rounds.holds`).
-/
namespace Seam.Binary64

open Float.Model (UnpackedFloat Format totalExponent)
open Float.Model.UnpackedFloat

/-- The real lies where the accuracy says, from the whole number on and below the next. -/
def Locates (m : ℕ) : Accuracy → ℝ → Prop
  | .exact, v => v = m
  | .inexact .lt, v => m < v ∧ v - m < m + 1 - v
  | .inexact .eq, v => v - m = m + 1 - v
  | .inexact .gt, v => m + 1 - v < v - m ∧ v < m + 1

namespace Locates

variable {m : ℕ} {a : Accuracy} {v : ℝ} {em : ExtendedMantissa}

theorem bounds (located : Locates m a v) : (m : ℝ) ≤ v ∧ v < m + 1 := by
  rcases a with _ | (_ | _ | _) <;> simp only [Locates] at located <;> constructor <;> linarith

/-- What is left of a factor behind a shift by all its bits beyond 53 has no more than these. -/
private theorem div_lt {k : ℕ} (located : Locates m a v) (digits : m.log2 ≤ 52 + k) : v / 2 ^ k < 2 ^ 53 := by
  have small : m + 1 ≤ 2 ^ (53 + k) := Nat.lt_log2_self.trans_le (Nat.pow_le_pow_right (by decide) (by omega))
  have cast : (m : ℝ) + 1 ≤ 2 ^ (53 + k) := by exact_mod_cast small
  rw [pow_add] at cast
  exact (div_lt_iff₀ (by positivity)).mpr (located.bounds.2.trans_le cast)

private theorem le_div {k : ℕ} (located : Locates m a v) (digits : m.log2 = 52 + k) : 2 ^ 52 ≤ v / 2 ^ k := by
  have some : m ≠ 0 := by
    rintro rfl
    rw [Nat.log2_zero] at digits
    omega
  have large : 2 ^ (52 + k) ≤ m := digits ▸ Nat.log2_self_le some
  have cast : (2 : ℝ) ^ (52 + k) ≤ m := by exact_mod_cast large
  rw [pow_add] at cast
  exact (le_div_iff₀ (by positivity)).mpr (cast.trans located.bounds.1)

private theorem roundToNearestEven_eq (located : Locates m a v) : a.roundToNearestEven m = Exact.nearest v := by
  have low : (0 : ℝ) ≤ v := (Nat.cast_nonneg m).trans located.bounds.1
  refine ((Exact.nearest_eq_iff low).mpr ?_).symm
  rcases a with _ | (_ | _ | _) <;> simp only [Locates] at located <;> simp only [Accuracy.roundToNearestEven]
  · exact .inl (by rw [located, sub_self, abs_zero]; norm_num)
  · exact .inl (abs_lt.mpr ⟨by linarith, by linarith⟩)
  · have bit : m % 2 = 0 ∨ m % 2 = 1 := by omega
    refine .inr ⟨?_, by omega⟩
    rcases bit with even | odd
    · rw [even, Nat.add_zero, abs_of_nonneg (by linarith)]
      linarith
    · rw [odd]
      push_cast
      rw [abs_of_nonpos (by linarith)]
      linarith
  · refine .inl ?_
    push_cast
    exact abs_lt.mpr ⟨by linarith, by linarith⟩

private theorem ofMantissaAndAccuracy (located : Locates m a v) :
    Locates (ExtendedMantissa.ofMantissaAndAccuracy m a).mantissa (ExtendedMantissa.ofMantissaAndAccuracy m a).accuracy v := by
  rcases a with _ | (_ | _ | _) <;> exact located

private theorem shiftRightOne (located : Locates em.mantissa em.accuracy v) :
    Locates em.shiftRightOne.mantissa em.shiftRightOne.accuracy (v / 2) := by
  obtain ⟨m, round, sticky⟩ := em
  have halves : (m : ℝ) = 2 * ((m / 2 : ℕ) : ℝ) + ((m % 2 : ℕ) : ℝ) := by exact_mod_cast (Nat.div_add_mod m 2).symm
  have bit : m % 2 = 0 ∨ m % 2 = 1 := by omega
  -- the bit that is shifted out becomes the round bit, and what was behind it is only remembered as some or none
  rcases bit with even | odd
  · have out : (m % 2 != 0) = false := by rw [even]; rfl
    rw [even, Nat.cast_zero, add_zero] at halves
    cases round <;> cases sticky <;> simp only [ExtendedMantissa.accuracy, Locates] at located <;>
      simp only [ExtendedMantissa.shiftRightOne, out, Bool.or_self, Bool.or_true, Bool.or_false, ExtendedMantissa.accuracy, Locates]
    · linarith
    all_goals constructor <;> linarith
  · have out : (m % 2 != 0) = true := by rw [odd]; rfl
    rw [odd, Nat.cast_one] at halves
    cases round <;> cases sticky <;> simp only [ExtendedMantissa.accuracy, Locates] at located <;>
      simp only [ExtendedMantissa.shiftRightOne, out, Bool.or_self, Bool.or_true, Bool.or_false, ExtendedMantissa.accuracy, Locates]
    · linarith
    all_goals constructor <;> linarith

private theorem shiftRight (located : Locates em.mantissa em.accuracy v) (n : ℕ) :
    Locates (em >>> n).mantissa (em >>> n).accuracy (v / 2 ^ n) := by
  change Locates (n.repeat ExtendedMantissa.shiftRightOne em).mantissa (n.repeat ExtendedMantissa.shiftRightOne em).accuracy _
  induction n with
  | zero => simpa [Nat.repeat] using located
  | succ n ih =>
    rw [pow_succ, ← div_div]
    exact ih.shiftRightOne

end Locates

/-- The reals with a whole factor of at most 53 bits and an exponent that is not too low. -/
def Grid : Set ℝ := {w | ∃ m e, m < 2 ^ 53 ∧ -1074 ≤ e ∧ w = scaled m e}

theorem natCast_mem_grid {m : ℕ} (small : m < 2 ^ 53) : (m : ℝ) ∈ Grid :=
  ⟨m, 0, small, by norm_num, by rw [scaled_eq, zpow_zero, mul_one]⟩

theorem magnitude_mem_grid {x : UnpackedFloat} (holds : Holds x) : magnitude x ∈ Grid := by
  cases holds with
  | zero s => exact ⟨0, 0, by norm_num, by norm_num, by rw [scaled_eq, Nat.cast_zero, zero_mul]; rfl⟩
  | @finite s m e positive fits bounded => exact ⟨m, e, fits.small, fits.low, rfl⟩

/-- The largest finite number. -/
noncomputable def largest : ℝ := scaled (2 ^ 53 - 1) 971

/-- Halfway between the largest number and the power of two that would be next. -/
noncomputable def overflow : ℝ := largest + scaled 1 970

private theorem largest_mem_grid : largest ∈ Grid := ⟨2 ^ 53 - 1, 971, by norm_num, by norm_num, rfl⟩

theorem overflow_add : overflow + scaled 1 970 = scaled 1 1024 := by
  have twice : scaled 1 970 + scaled 1 970 = (2 : ℝ) ^ 971 := by
    rw [scaled_eq, Nat.cast_one, one_mul, zpow_ofNat, ← two_mul, ← pow_succ']
  rw [overflow, add_assoc, twice, largest, scaled_eq, scaled_eq, Nat.cast_sub (by norm_num), sub_mul, Nat.cast_pow,
    Nat.cast_ofNat, Nat.cast_one, one_mul, one_mul, zpow_ofNat, zpow_ofNat, ← pow_add, sub_add_cancel]

theorem lt_overflow {x : ℝ} (low : x ≤ largest + 1 / 2) : x < overflow := by
  have half : 1 ≤ scaled 1 970 := by
    rw [scaled_eq, Nat.cast_one, one_mul]
    exact one_le_zpow₀ (by norm_num) (by norm_num)
  rw [overflow]
  linarith

/-- The nearest whole multiple of a unit is nearest among all of the grid, if the unit is the least one or the factor
    has at least 53 bits. -/
private theorem abs_sub_le_of_grid {v : ℝ} {r : ℕ} {t : ℤ} (near : |(r : ℝ) - v| ≤ 1 / 2)
    (room : t = -1074 ∨ 2 ^ 52 ≤ v) {w : ℝ} (grid : w ∈ Grid) :
    |r * (2 : ℝ) ^ t - v * (2 : ℝ) ^ t| ≤ |w - v * (2 : ℝ) ^ t| := by
  obtain ⟨m, e, small, low', rfl⟩ := grid
  rw [scaled_eq]
  have unit : (0 : ℝ) < (2 : ℝ) ^ t := zpow_pos (by norm_num) t
  -- any other whole number is further away
  have whole (n : ℤ) : |(r : ℝ) - v| ≤ |(n : ℝ) - v| := by
    by_cases same : n = r
    · rw [same, Int.cast_natCast]
    · have apart : (1 : ℝ) ≤ |(n : ℝ) - r| := by
        have : (1 : ℤ) ≤ |n - r| := Int.one_le_abs (sub_ne_zero.mpr same)
        exact_mod_cast this
      have triangle := abs_sub_le (n : ℝ) v r
      rw [abs_sub_comm v r] at triangle
      linarith
  have stretched (a : ℝ) : |a * (2 : ℝ) ^ t - v * (2 : ℝ) ^ t| = |a - v| * (2 : ℝ) ^ t := by
    rw [← sub_mul, abs_mul, abs_of_pos unit]
  by_cases coarse : t ≤ e
  · -- the number is a whole multiple of the unit
    obtain ⟨k, rfl⟩ := Int.le.dest coarse
    have multiple : (m : ℝ) * (2 : ℝ) ^ (t + k) = ((m * 2 ^ k : ℕ) : ℤ) * (2 : ℝ) ^ t := by
      rw [zpow_add₀ (by norm_num), zpow_natCast]
      push_cast
      ring
    rw [multiple, stretched, stretched]
    exact mul_le_mul_of_nonneg_right (whole _) unit.le
  · -- the number is below the factor of 53 bits that is nearest to zero
    have large : 2 ^ 52 ≤ v := room.resolve_left fun same => by omega
    have below : (m : ℝ) * (2 : ℝ) ^ e ≤ 2 ^ 52 * (2 : ℝ) ^ t := by
      have finer : (2 : ℝ) ^ e ≤ (2 : ℝ) ^ (t - 1) := zpow_le_zpow_right₀ (by norm_num) (by omega)
      have bound : (m : ℝ) ≤ 2 ^ 53 := by exact_mod_cast small.le
      calc (m : ℝ) * (2 : ℝ) ^ e ≤ 2 ^ 53 * (2 : ℝ) ^ (t - 1) := by gcongr
        _ = 2 ^ 52 * (2 : ℝ) ^ t := by rw [zpow_sub_one₀ (by norm_num)]; ring
    have reach := whole (2 ^ 52 : ℕ)
    rw [Int.cast_natCast, Nat.cast_pow, Nat.cast_ofNat, abs_of_nonpos (by linarith : (2 : ℝ) ^ 52 - v ≤ 0)] at reach
    have side : (m : ℝ) * (2 : ℝ) ^ e - v * (2 : ℝ) ^ t ≤ 0 := by
      have := mul_le_mul_of_nonneg_right large unit.le
      linarith
    rw [stretched, abs_of_nonpos side]
    have := mul_le_mul_of_nonneg_right reach unit.le
    linarith

theorem targetExponent_eq (total : ℤ) : Format.binary64.targetExponent total = max (total - 53) (-1074) := rfl

/-- The number has the sign, and nothing on the grid is nearer to the real than it is without its sign. -/
structure Rounds (s : Sign) (x : ℝ) (y : UnpackedFloat) : Prop where
  form : y = .zero s ∨ ∃ m e, ∃ positive : 0 < m, y = .finite s m e positive ∧ Fits m e
  nearest : ∀ w ∈ Grid, |magnitude y - x| ≤ |w - x|
  /-- It is a whole multiple of the unit of the last of its bits, and a tie goes to the even one. -/
  even : ∃ t : ℤ, -1074 ≤ t ∧ (t = -1074 ∨ 2 ^ 52 ≤ x / (2 : ℝ) ^ t) ∧ x / (2 : ℝ) ^ t < 2 ^ 53 ∧
    magnitude y = Exact.nearest (x / (2 : ℝ) ^ t) * (2 : ℝ) ^ t

namespace Rounds

variable {s : Sign} {x : ℝ} {y : UnpackedFloat}

/-- What the grid has is not changed. -/
theorem magnitude_eq (rounds : Rounds s x y) (grid : x ∈ Grid) : magnitude y = x := by
  have off := rounds.nearest x grid
  rw [sub_self, abs_zero, abs_nonpos_iff, sub_eq_zero] at off
  exact off

theorem negative_eq (rounds : Rounds s x y) : negative y = isMinus s := by
  rcases rounds.form with rfl | ⟨m, e, positive, rfl, _⟩ <;> rfl

theorem zero (s : Sign) : Rounds s 0 (.zero s) where
  form := .inl rfl
  nearest w _ := by
    show |(0 : ℝ) - 0| ≤ |w - 0|
    rw [sub_zero, abs_zero]
    exact abs_nonneg _
  even := ⟨-1074, le_rfl, .inl rfl, by norm_num, by simp [magnitude, Exact.nearest_zero]⟩

/-- A number too large for a word is nearer to the largest that is not, until halfway to the next. -/
theorem holds (rounds : Rounds s x y) (below : x < overflow) : Holds y := by
  rcases rounds.form with rfl | ⟨m, e, positive, rfl, fits⟩
  · exact .zero s
  · refine .finite s positive fits (not_lt.mp fun beyond => ?_)
    have full : 2 ^ 52 ≤ m := fits.full.resolve_right (by omega)
    have large : scaled 1 1024 ≤ scaled m e := by
      have factor : (2 : ℝ) ^ 52 ≤ m := by exact_mod_cast full
      have power : (2 : ℝ) ^ (972 : ℤ) ≤ (2 : ℝ) ^ e := zpow_le_zpow_right₀ (by norm_num) (by omega)
      rw [scaled_eq, scaled_eq]
      calc (1 : ℕ) * (2 : ℝ) ^ (1024 : ℤ) = 2 ^ 52 * (2 : ℝ) ^ (972 : ℤ) := by
            rw [Nat.cast_one, one_mul, zpow_ofNat, zpow_ofNat, ← pow_add]
        _ ≤ m * (2 : ℝ) ^ e := by gcongr
    have nearer : |scaled m e - x| ≤ |largest - x| := rounds.nearest _ largest_mem_grid
    have last : overflow = largest + scaled 1 970 := rfl
    have next := overflow_add
    have half : 0 < scaled 1 970 := by
      rw [scaled_eq]
      positivity
    rw [abs_of_nonneg (by linarith)] at nearer
    rcases le_abs'.mp nearer with before | behind <;> linarith

end Rounds

private theorem shiftToTargetExponent_of_le {m : ℕ} {e : ℤ} {a : Accuracy} (low : e ≤ -1074 ∨ 2 ^ 52 ≤ m) :
    ∃ k : ℕ, e + k = max ((m.log2 : ℤ) + 1 + e - 53) (-1074) ∧
      shiftToTargetExponent Format.binary64 m e a = (ExtendedMantissa.ofMantissaAndAccuracy m a >>> k, e + k) := by
  have digits : e ≤ -1074 ∨ 52 ≤ m.log2 := by
    refine low.imp_right fun large => (Nat.le_log2 (by omega)).mpr large
  refine ⟨(max ((m.log2 : ℤ) + 1 + e - 53) (-1074) - e).toNat, by omega, ?_⟩
  rw [shiftToTargetExponent, targetExponent_eq, shiftToExponent, totalExponent]

/-- A factor that was rounded up to a power of two is shifted once more. -/
private theorem shiftToTargetExponent_of_fits {r : ℕ} {t : ℤ} (low : -1074 ≤ t) (small : r ≤ 2 ^ 53) :
    ∃ em e, shiftToTargetExponent Format.binary64 r t .exact = (em, e) ∧ em.mantissa < 2 ^ 53 ∧ t ≤ e ∧
      (em.mantissa : ℝ) * (2 : ℝ) ^ e = r * (2 : ℝ) ^ t ∧ (em.mantissa = r ∧ e = t ∨ em.mantissa = 2 ^ 52) := by
  rw [shiftToTargetExponent, targetExponent_eq, shiftToExponent, totalExponent]
  rcases lt_or_eq_of_le small with less | rfl
  · have digits : r.log2 ≤ 52 := by
      by_cases none : r = 0
      · simp [none]
      · have := (Nat.log2_lt none).mpr less
        omega
    have still : (max ((r.log2 : ℤ) + 1 + t - 53) (-1074) - t).toNat = 0 := by omega
    rw [still]
    exact ⟨_, _, rfl, less, by simp, by simp [ExtendedMantissa.ofMantissaAndAccuracy, HShiftRight.hShiftRight, Nat.repeat],
      .inl ⟨rfl, by simp⟩⟩
  · have once : (max (((2 ^ 53 : ℕ).log2 : ℤ) + 1 + t - 53) (-1074) - t).toNat = 1 := by
      rw [Nat.log2_two_pow]
      omega
    rw [once]
    refine ⟨_, _, rfl, by decide, by simp, ?_, .inr (by decide)⟩
    show ((2 ^ 53 / 2 : ℕ) : ℝ) * (2 : ℝ) ^ (t + (1 : ℕ)) = _
    rw [zpow_add₀ (by norm_num)]
    norm_num
    ring

theorem rounds_roundWithAccuracy {m : ℕ} {e : ℤ} {a : Accuracy} {v : ℝ} (s : Sign) (located : Locates m a v)
    (low : e ≤ -1074 ∨ 2 ^ 52 ≤ m) : Rounds s (v * (2 : ℝ) ^ e) (roundWithAccuracy Format.binary64 s m e a) := by
  obtain ⟨k, target, first⟩ := shiftToTargetExponent_of_le (a := a) low
  generalize reached : e + (k : ℤ) = t at target first
  have shifted := located.ofMantissaAndAccuracy.shiftRight k
  generalize ExtendedMantissa.ofMantissaAndAccuracy m a >>> k = em at first shifted
  have whole : em.roundedMantissa = Exact.nearest (v / 2 ^ k) := shifted.roundToNearestEven_eq
  have near : |(em.roundedMantissa : ℝ) - v / 2 ^ k| ≤ 1 / 2 := by
    rw [whole]
    exact Exact.abs_nearest_sub_le ((Nat.cast_nonneg _).trans shifted.bounds.1)
  have exact : v * (2 : ℝ) ^ e = v / 2 ^ k * (2 : ℝ) ^ t := by
    rw [← reached, zpow_add₀ (by norm_num), zpow_natCast]
    field_simp
  -- the shifted factor has at most 53 bits, and has them all above the least exponent
  have above : t = -1074 ∨ 2 ^ 52 ≤ v / 2 ^ k := by
    by_cases least : t = -1074
    · exact .inl least
    · exact .inr (located.le_div (by omega))
  have below : v / 2 ^ k < 2 ^ 53 := located.div_lt (by omega)
  rw [abs_le] at near
  have small : em.roundedMantissa ≤ 2 ^ 53 := by
    have : (em.roundedMantissa : ℝ) < (2 ^ 53 + 1 : ℕ) := by
      push_cast
      linarith
    exact Nat.lt_succ_iff.mp (by exact_mod_cast this)
  have least : -1074 ≤ t := by omega
  obtain ⟨em', t', second, fewer, higher, same, full⟩ := shiftToTargetExponent_of_fits least small
  have fits : Fits em'.mantissa t' := by
    refine ⟨fewer, least.trans higher, ?_⟩
    rcases full with ⟨kept, rfl⟩ | full
    · rcases above with least | large
      · exact .inr least
      · left
        have : ((2 ^ 52 : ℕ) : ℝ) < (em.roundedMantissa + 1 : ℕ) := by
          push_cast
          linarith
        have : 2 ^ 52 < em.roundedMantissa + 1 := by exact_mod_cast this
        omega
    · exact .inl full.ge
  have nearest : ∀ w ∈ Grid, |(em'.mantissa : ℝ) * (2 : ℝ) ^ t' - v * (2 : ℝ) ^ e| ≤ |w - v * (2 : ℝ) ^ e| := by
    intro w grid
    rw [same, exact]
    exact abs_sub_le_of_grid (abs_le.mpr near) above grid
  have part : v * (2 : ℝ) ^ e / (2 : ℝ) ^ t = v / 2 ^ k := by rw [exact, mul_div_cancel_right₀ _ (by positivity)]
  have even : (em'.mantissa : ℝ) * (2 : ℝ) ^ t' = Exact.nearest (v * (2 : ℝ) ^ e / (2 : ℝ) ^ t) * (2 : ℝ) ^ t := by
    rw [same, part, whole]
  rw [← part] at above below
  rw [roundWithAccuracy]
  simp only [first, second]
  split
  · next none =>
    rw [none, Nat.cast_zero, zero_mul] at nearest even
    exact ⟨.inl rfl, nearest, t, least, above, below, even⟩
  · next some => exact ⟨.inr ⟨_, _, Nat.pos_of_ne_zero some, rfl, fits⟩, nearest, t, least, above, below, even⟩

theorem rounds_mul {s₁ s₂ : Sign} {m₁ m₂ : ℕ} {e₁ e₂ : ℤ} (positive₁ : 0 < m₁) (positive₂ : 0 < m₂)
    (large : 2 ^ 52 ≤ m₁ * m₂) :
    Rounds (s₁ * s₂) (m₁ * (2 : ℝ) ^ e₁ * (m₂ * (2 : ℝ) ^ e₂))
      (UnpackedFloat.mul Format.binary64 (.finite s₁ m₁ e₁ positive₁) (.finite s₂ m₂ e₂ positive₂)) := by
  have exact : (m₁ : ℝ) * (2 : ℝ) ^ e₁ * (m₂ * (2 : ℝ) ^ e₂) = (m₁ * m₂ : ℕ) * (2 : ℝ) ^ (e₁ + e₂) := by
    rw [zpow_add₀ (by norm_num)]
    push_cast
    ring
  rw [exact]
  exact rounds_roundWithAccuracy _ (by rfl) (.inr large)

/-- How many bits a factor has when it is shifted. -/
theorem pow_le_mul_pow {m k n : ℕ} (positive : 0 < m) (digits : n ≤ m.log2 + k) : 2 ^ n ≤ m * 2 ^ k := by
  calc 2 ^ n ≤ 2 ^ (m.log2 + k) := Nat.pow_le_pow_right (by decide) digits
    _ = 2 ^ m.log2 * 2 ^ k := pow_add ..
    _ ≤ m * 2 ^ k := Nat.mul_le_mul_right _ (Nat.log2_self_le positive.ne')

theorem div_eq_add_mod (n : ℕ) {d : ℕ} (positive : 0 < d) : (n : ℝ) / d = (n / d : ℕ) + (n % d : ℕ) / (d : ℝ) := by
  have unit : (0 : ℝ) < d := Nat.cast_pos.mpr positive
  have whole : (n : ℝ) = d * (n / d : ℕ) + (n % d : ℕ) := by exact_mod_cast (Nat.div_add_mod n d).symm
  field_simp
  linarith

/-- The whole part of a quotient, with where the quotient lies. -/
private theorem locates_div (n : ℕ) {d : ℕ} (positive : 0 < d) : Locates (n / d) (accuracyOfFraction (n % d) d) (n / d) := by
  have unit : (0 : ℝ) < d := Nat.cast_pos.mpr positive
  have proper : ((n % d : ℕ) : ℝ) / d < 1 := (div_lt_one unit).mpr (Nat.cast_lt.mpr (Nat.mod_lt n positive))
  rw [div_eq_add_mod n positive]
  generalize n % d = r at proper
  rw [accuracyOfFraction]
  split_ifs with none
  · simp [Locates, none]
  · have some : (0 : ℝ) < r / d := div_pos (Nat.cast_pos.mpr (Nat.pos_of_ne_zero none)) unit
    cases compared : compare (2 * r) d with
    | lt =>
      have less : (2 * r : ℝ) < d := by exact_mod_cast Nat.compare_eq_lt.mp compared
      have below : (r : ℝ) / d < 1 / 2 := (div_lt_iff₀ unit).mpr (by linarith)
      exact ⟨by linarith, by linarith⟩
    | eq =>
      have same : (2 * r : ℝ) = d := by exact_mod_cast Nat.compare_eq_eq.mp compared
      have half : (r : ℝ) / d = 1 / 2 := (div_eq_iff unit.ne').mpr (by linarith)
      show _ - _ = _
      linarith
    | gt =>
      have more : (d : ℝ) < 2 * r := by exact_mod_cast Nat.compare_eq_gt.mp compared
      have above : 1 / 2 < (r : ℝ) / d := (lt_div_iff₀ unit).mpr (by linarith)
      exact ⟨by linarith, by linarith⟩

theorem rounds_div {s₁ s₂ : Sign} {m₁ m₂ : ℕ} {e₁ e₂ : ℤ} (positive₁ : 0 < m₁) (positive₂ : 0 < m₂) :
    Rounds (s₁ / s₂) (m₁ * (2 : ℝ) ^ e₁ / (m₂ * (2 : ℝ) ^ e₂))
      (UnpackedFloat.div Format.binary64 (.finite s₁ m₁ e₁ positive₁) (.finite s₂ m₂ e₂ positive₂)) := by
  show Rounds _ _ (roundWithAccuracy Format.binary64 _ (m₁ <<< _ / m₂) _ (accuracyOfFraction (m₁ <<< _ % m₂) m₂))
  rw [targetExponent_eq, totalExponent, totalExponent]
  generalize lowest : min (e₁ - e₂) _ = t
  generalize shifts : (e₁ - e₂ - t).toNat = k
  have exponent : e₁ - e₂ = t + k := by omega
  rw [Nat.shiftLeft_eq]
  have exact : m₁ * (2 : ℝ) ^ e₁ / (m₂ * (2 : ℝ) ^ e₂) = ((m₁ * 2 ^ k : ℕ) : ℝ) / m₂ * (2 : ℝ) ^ t := by
    have split : (2 : ℝ) ^ e₁ = (2 : ℝ) ^ t * 2 ^ k * (2 : ℝ) ^ e₂ := by
      rw [← zpow_natCast, ← zpow_add₀ (by norm_num), ← exponent, ← zpow_add₀ (by norm_num), sub_add_cancel]
    rw [split]
    push_cast
    field_simp
  rw [exact]
  refine rounds_roundWithAccuracy _ (locates_div _ positive₂) ?_
  -- above the least exponent the factor was shifted until the quotient has 53 bits
  by_cases least : t ≤ -1074
  · exact .inl least
  · right
    rw [Nat.le_div_iff_mul_le positive₂]
    calc 2 ^ 52 * m₂ ≤ 2 ^ 52 * 2 ^ (m₂.log2 + 1) := Nat.mul_le_mul_left _ Nat.lt_log2_self.le
      _ = 2 ^ (53 + m₂.log2) := by rw [← pow_add]; congr 1; omega
      _ ≤ m₁ * 2 ^ k := pow_le_mul_pow positive₁ (by omega)

end Seam.Binary64
