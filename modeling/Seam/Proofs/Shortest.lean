import Seam.Proofs.Scientific

/-!
The shortest decimals of numbers of 64 bits. The search ends on a grid that is finer than
the interval, so what it finds lies in the interval (`Shortest.contains_ofInterval`), and
a decimal in the interval of a number is rounded to it (`Binary64.Rounds.magnitude_eq_of_around`),
whatever becomes of the ties at the ends. So every finite number is read back from its
shortest decimal, in whatever way this is written (`Binary64.ofDecimal_eq_of_shortest`).
-/
namespace Seam

namespace Rounding

private theorem shift_snd_eq (n n' den : ℕ) (j : ℤ) : (shift n den j).2 = (shift n' den j).2 := by cases j <;> rfl

private theorem shift_eq (n : ℕ) {den : ℕ} (positive : 0 < den) (j : ℤ) :
    0 < (shift n den j).2 ∧ ((shift n den j).1 : ℝ) / (shift n den j).2 = (n : ℝ) / den / (10 : ℝ) ^ j := by
  have unit : (den : ℝ) ≠ 0 := by exact_mod_cast positive.ne'
  cases j with
  | ofNat k =>
    refine ⟨Nat.mul_pos positive (Nat.pow_pos (by decide)), ?_⟩
    simp only [shift, Nat.pow_eq, Int.ofNat_eq_natCast, zpow_natCast]
    push_cast
    field_simp
  | negSucc k =>
    refine ⟨positive, ?_⟩
    simp only [shift, Nat.pow_eq, zpow_negSucc]
    push_cast
    field_simp

/-- The power of ten is not more than one too high. -/
private theorem pow_magnitude_le {num den : ℕ} (some : 0 < num) (positive : 0 < den) :
    (10 : ℝ) ^ (magnitude num den - 1) ≤ (num : ℝ) / den := by
  have unit : (0 : ℝ) < den := Nat.cast_pos.mpr positive
  rw [le_div_iff₀ unit, magnitude, width, width]
  split_ifs with whole
  · have long := Nat.length_toDigits_pos (b := 10) (n := num / den)
    obtain ⟨k, length⟩ : ∃ k, (Nat.toDigits 10 (num / den)).length = k + 1 := ⟨_, (Nat.succ_pred_eq_of_pos long).symm⟩
    have digits : 10 ^ k ≤ num / den := by
      by_contra less
      rcases Nat.eq_zero_or_pos k with rfl | more
      · have := Nat.div_pos whole positive
        omega
      · have := (Nat.length_toDigits_le_iff (by decide) more).mpr (not_le.mp less)
        omega
    have product : 10 ^ k * den ≤ num := (Nat.le_div_iff_mul_le positive).mp digits
    rw [length, Nat.cast_succ, add_sub_cancel_right, zpow_natCast]
    exact_mod_cast product
  · have long := Nat.length_toDigits_pos (b := 10) (n := (den - 1) / num)
    generalize length : (Nat.toDigits 10 ((den - 1) / num)).length = k at long
    have digits : (den - 1) / num < 10 ^ k := (Nat.length_toDigits_le_iff (by decide) long).mp length.le
    have product : den ≤ 10 ^ k * num := by
      have := (Nat.div_lt_iff_lt_mul some).mp digits
      omega
    rw [sub_sub, add_comm, ← sub_sub, sub_self, zero_sub, zpow_neg, zpow_natCast, inv_mul_le_iff₀ (by positivity)]
    exact_mod_cast product

end Rounding

namespace Shortest

namespace Interval

/-- The real lies in the interval. -/
def Contains (i : Interval) (v : ℝ) : Prop :=
  if i.closed then (i.low : ℝ) / i.den ≤ v ∧ v ≤ (i.high : ℝ) / i.den
  else (i.low : ℝ) / i.den < v ∧ v < (i.high : ℝ) / i.den

/-- The quotient is positive and lies between the ends. -/
structure Proper (i : Interval) : Prop where
  den_pos : 0 < i.den
  num_pos : 0 < i.num
  low_lt : i.low < i.num
  lt_high : i.num < i.high

variable {i : Interval} {tie : Tie} {j : ℤ} {d : ℕ}

private theorem holds_iff (positive : 0 < i.den) : i.holds d j = true ↔ i.Contains (d * (10 : ℝ) ^ j) := by
  obtain ⟨den_pos, low⟩ := Rounding.shift_eq i.low positive j
  obtain ⟨_, high⟩ := Rounding.shift_eq i.high positive j
  have unit : (0 : ℝ) < ((Rounding.shift i.low i.den j).2 : ℝ) := Nat.cast_pos.mpr den_pos
  have power : (0 : ℝ) < (10 : ℝ) ^ j := by positivity
  rw [Rounding.shift_snd_eq i.high i.low] at high
  rw [eq_div_iff power.ne'] at low high
  rw [Contains, ← low, ← high, holds]
  cases i.closed <;>
    simp only [Bool.false_eq_true, ↓reduceIte, Bool.and_eq_true, decide_eq_true_eq, mul_le_mul_iff_of_pos_right power,
      mul_lt_mul_iff_of_pos_right power, div_le_iff₀ unit, le_div_iff₀ unit, div_lt_iff₀ unit, lt_div_iff₀ unit] <;>
    norm_cast

private theorem holds_of_onGrid? (found : i.onGrid? tie j = some d) : i.holds d j = true := by
  rw [onGrid?] at found
  simp only at found
  split at found
  · next low high =>
    cases found
    rw [nearer]
    split_ifs
    · exact low
    · exact high
  · next low _ =>
    cases found
    exact low
  · next _ high =>
    cases found
    exact high
  · cases found

/-- On a grid that is finer than the interval is wide, one of the quotient's neighbours lies in the interval. -/
private theorem exists_onGrid? (proper : i.Proper) (tie : Tie) (fine : (10 : ℝ) ^ j < ((i.high : ℝ) - i.low) / i.den) :
    ∃ d, i.onGrid? tie j = some d := by
  obtain ⟨positive, _, below, above⟩ := proper
  obtain ⟨den_pos, value⟩ := Rounding.shift_eq i.num positive j
  have unit : (0 : ℝ) < i.den := Nat.cast_pos.mpr positive
  have power : (0 : ℝ) < (10 : ℝ) ^ j := by positivity
  generalize whole : (Rounding.shift i.num i.den j).1 / (Rounding.shift i.num i.den j).2 = q
  have low : (q : ℝ) * (10 : ℝ) ^ j ≤ (i.num : ℝ) / i.den := by
    rw [← le_div_iff₀ power, ← value, ← whole]
    exact Nat.cast_div_le
  have high : (i.num : ℝ) / i.den < (q + 1 : ℕ) * (10 : ℝ) ^ j := by
    rw [← div_lt_iff₀ power, ← value, ← whole, div_lt_iff₀ (Nat.cast_pos.mpr den_pos)]
    exact_mod_cast (Nat.div_lt_iff_lt_mul den_pos).mp (Nat.lt_succ_self _)
  have less : (i.low : ℝ) / i.den < (i.num : ℝ) / i.den := div_lt_div_of_pos_right (Nat.cast_lt.mpr below) unit
  have more : (i.num : ℝ) / i.den < (i.high : ℝ) / i.den := div_lt_div_of_pos_right (Nat.cast_lt.mpr above) unit
  have inside {d : ℕ} (left : (i.low : ℝ) / i.den < d * (10 : ℝ) ^ j) (right : d * (10 : ℝ) ^ j < (i.high : ℝ) / i.den) :
      i.holds d j = true := by
    rw [holds_iff positive, Contains]
    split_ifs
    · exact ⟨left.le, right.le⟩
    · exact ⟨left, right⟩
  have neighbour : i.holds q j = true ∨ i.holds (q + 1) j = true := by
    by_cases within : (i.low : ℝ) / i.den < q * (10 : ℝ) ^ j
    · exact .inl (inside within (low.trans_lt more))
    · refine .inr (inside (less.trans high) ?_)
      push_cast
      rw [sub_div] at fine
      linarith
  rw [onGrid?]
  simp only [whole]
  rcases neighbour with here | here <;> rw [here] <;> split <;> simp_all

end Interval

private theorem trim_eq (fuel d : ℕ) (j : ℤ) :
    ((trim fuel d j).1 : ℝ) * (10 : ℝ) ^ (trim fuel d j).2 = d * (10 : ℝ) ^ j := by
  induction fuel generalizing d j with
  | zero => rfl
  | succ fuel ih =>
    rw [trim]
    split
    · next zeros =>
      simp only [Bool.and_eq_true, decide_eq_true_eq] at zeros
      have whole : (d : ℝ) = (d / 10 : ℕ) * 10 := by exact_mod_cast (Nat.div_mul_cancel (Nat.dvd_of_mod_eq_zero zeros.1)).symm
      calc ((trim fuel (d / 10) (j + 1)).1 : ℝ) * (10 : ℝ) ^ (trim fuel (d / 10) (j + 1)).2 =
          (d / 10 : ℕ) * (10 : ℝ) ^ (j + 1) := ih ..
        _ = (d / 10 : ℕ) * 10 * (10 : ℝ) ^ j := by rw [zpow_add₀ (by norm_num), zpow_one]; ring
        _ = d * (10 : ℝ) ^ j := by rw [← whole]
    · rfl

/-- What the search finds lies in the interval, if the last grid is fine enough. -/
theorem contains_ofInterval {i : Interval} (proper : i.Proper) (tie : Tie) (negative : Bool) {limit : ℕ}
    (wide : i.num < (i.high - i.low) * 10 ^ limit) :
    i.Contains ((ofInterval tie (limit + 1) negative i).digits * (10 : ℝ) ^ (ofInterval tie (limit + 1) negative i).exponent) := by
  have unit : (0 : ℝ) < i.den := Nat.cast_pos.mpr proper.den_pos
  have fine : (10 : ℝ) ^ (Rounding.magnitude i.num i.den - (limit + 1 : ℕ)) < ((i.high : ℝ) - i.low) / i.den := by
    have low := Rounding.pow_magnitude_le proper.num_pos proper.den_pos
    have room : (i.num : ℝ) < ((i.high : ℝ) - i.low) * 10 ^ limit := by
      rw [← Nat.cast_sub (proper.low_lt.trans proper.lt_high).le]
      exact_mod_cast wide
    have last : (10 : ℝ) ^ (Rounding.magnitude i.num i.den - (limit + 1 : ℕ)) =
        (10 : ℝ) ^ (Rounding.magnitude i.num i.den - 1) / 10 ^ limit := by
      rw [← zpow_natCast, ← zpow_sub₀ (by norm_num)]
      congr 1
      push_cast
      ring
    rw [last, div_lt_iff₀ (by positivity)]
    calc (10 : ℝ) ^ (Rounding.magnitude i.num i.den - 1) ≤ (i.num : ℝ) / i.den := low
      _ < ((i.high : ℝ) - i.low) * 10 ^ limit / i.den := div_lt_div_of_pos_right room unit
      _ = ((i.high : ℝ) - i.low) / i.den * 10 ^ limit := by ring
  obtain ⟨last, hit⟩ := Interval.exists_onGrid? proper tie fine
  rw [ofInterval]
  generalize searched : (List.range (limit + 1)).findSome? _ = grid
  cases grid with
  | none =>
    rw [List.findSome?_eq_none_iff] at searched
    have miss := searched limit (List.mem_range.mpr (Nat.lt_succ_self _))
    rw [Option.map_eq_none_iff, hit] at miss
    cases miss
  | some found =>
    obtain ⟨n, _, here⟩ := List.exists_of_findSome?_eq_some searched
    obtain ⟨d, on, rfl⟩ := Option.map_eq_some_iff.mp here
    simp only [Option.getD_some]
    rw [trim_eq, ← Interval.holds_iff proper.den_pos]
    exact Interval.holds_of_onGrid? on

end Shortest

namespace Binary64

open Float.Model (UnpackedFloat)
open Float.Model.UnpackedFloat

/-- How far the interval of a number reaches below it, in quarters of its last bit. -/
def reach (m : ℕ) (e : ℤ) : ℕ := if m = 2 ^ 52 ∧ -1074 < e then 1 else 2

private theorem reach_le (m : ℕ) (e : ℤ) : reach m e ≤ 2 := by
  rw [reach]
  split_ifs <;> decide

private theorem quotient_one_pos (e : ℤ) : 0 < (quotient 1 e).1 := by
  cases e with
  | ofNat k => exact Nat.mul_pos Nat.one_pos (Nat.pow_pos (by decide))
  | negSucc k => exact Nat.one_pos

private theorem proper_interval {m : ℕ} (positive : 0 < m) (e : ℤ) : (interval m e).Proper where
  den_pos := (quotient_eq 1 (e - 2)).1
  num_pos := Nat.mul_pos (Nat.mul_pos (by decide) positive) (quotient_one_pos _)
  low_lt := by
    refine Nat.mul_lt_mul_of_pos_right ?_ (quotient_one_pos _)
    split_ifs <;> omega
  lt_high := Nat.mul_lt_mul_of_pos_right (by omega) (quotient_one_pos _)

private theorem ends_interval {m : ℕ} (positive : 0 < m) (e : ℤ) :
    ((interval m e).low : ℝ) / (interval m e).den = (m - reach m e / 4) * (2 : ℝ) ^ e ∧
      ((interval m e).high : ℝ) / (interval m e).den = (m + 1 / 2) * (2 : ℝ) ^ e := by
  have value := (quotient_eq 1 (e - 2)).2
  have quarter : (2 : ℝ) ^ (e - 2) = (2 : ℝ) ^ e / 4 := by
    rw [zpow_sub₀ (by norm_num)]
    norm_num
  rw [Nat.cast_one, one_mul, quarter] at value
  simp only [interval, Nat.pow_eq]
  constructor
  · by_cases power : m = 2 ^ 52 ∧ -1074 < e
    · rw [if_pos (by simpa using power), reach, if_pos power, Nat.cast_mul, mul_div_assoc, value, Nat.cast_sub (by omega)]
      push_cast
      ring
    · rw [if_neg (by simpa using power), reach, if_neg power, Nat.cast_mul, mul_div_assoc, value, Nat.cast_sub (by omega)]
      push_cast
      ring
  · rw [Nat.cast_mul, mul_div_assoc, value]
    push_cast
    ring

/-- The reals in the interval, measured in units of the last bit: the ends belong to it if the factor is even. -/
private theorem contains_interval_iff {m : ℕ} (positive : 0 < m) {e : ℤ} {v : ℝ} :
    (interval m e).Contains v ↔ m - reach m e / 4 ≤ v / (2 : ℝ) ^ e ∧ v / (2 : ℝ) ^ e ≤ m + 1 / 2 ∧
      (m % 2 = 0 ∨ m - reach m e / 4 < v / (2 : ℝ) ^ e ∧ v / (2 : ℝ) ^ e < m + 1 / 2) := by
  have unit : (0 : ℝ) < (2 : ℝ) ^ e := by positivity
  obtain ⟨low, high⟩ := ends_interval positive e
  have closed : (interval m e).closed = decide (m % 2 = 0) := rfl
  rw [Shortest.Interval.Contains, low, high, closed]
  by_cases even : m % 2 = 0
  · simp [even, le_div_iff₀ unit, div_le_iff₀ unit]
  · rw [if_neg (by simpa using even), ← lt_div_iff₀ unit, ← div_lt_iff₀ unit]
    constructor
    · rintro ⟨left, right⟩
      exact ⟨left.le, right.le, .inr ⟨left, right⟩⟩
    · rintro ⟨_, _, strict⟩
      exact strict.resolve_left even

/-- The real is one of those that are rounded to the number without its sign. -/
def Around : UnpackedFloat → ℝ → Prop
  | .finite _ m e _, v => (interval m e).Contains v
  | .zero _, v => v = 0
  | _, _ => False

theorem Around.lt_overflow {u : UnpackedFloat} (holds : Holds u) {v : ℝ} (around : Around u v) : v < overflow := by
  cases holds with
  | zero s =>
    obtain rfl : v = 0 := around
    refine Binary64.lt_overflow ?_
    rw [largest, scaled_eq]
    positivity
  | @finite s m e positive fits bounded =>
    obtain ⟨_, high, strict⟩ := (contains_interval_iff positive).mp around
    have unit : (0 : ℝ) < (2 : ℝ) ^ e := by positivity
    -- the largest factor is odd, so the end of its interval is left out
    have below : v / (2 : ℝ) ^ e < 2 ^ 53 - 1 / 2 := by
      rcases strict with even | ⟨_, less⟩
      · have factor : m ≤ 2 ^ 53 - 2 := by
          have := fits.small
          omega
        have cast : (m : ℝ) ≤ 2 ^ 53 - 2 := by
          have : ((2 ^ 53 - 2 : ℕ) : ℝ) = 2 ^ 53 - 2 := by norm_num
          rw [← this]
          exact_mod_cast factor
        linarith
      · have cast : (m : ℝ) + 1 ≤ 2 ^ 53 := by exact_mod_cast fits.small
        linarith
    have half (e : ℤ) : scaled 1 (e - 1) = 1 / 2 * (2 : ℝ) ^ e := by
      rw [scaled_eq, zpow_sub_one₀ (by norm_num)]
      push_cast
      ring
    have last : overflow = largest + scaled 1 (971 - 1) := rfl
    rw [div_lt_iff₀ unit] at below
    calc v < (2 ^ 53 - 1 / 2) * (2 : ℝ) ^ e := below
      _ ≤ (2 ^ 53 - 1 / 2) * (2 : ℝ) ^ (971 : ℤ) := by
        gcongr
        norm_num
      _ = overflow := by
        rw [last, half, largest, scaled_eq, Nat.cast_sub (by norm_num)]
        push_cast
        ring

/-- The unit is smaller than that of the number only below a power of two, and there the power is the nearest. -/
private theorem Fits.carried {m : ℕ} {e t : ℤ} (fits : Fits m e) (finer : t < e) (least : -1074 ≤ t) {q : ℝ}
    (low : m - reach m e / 4 ≤ q) (below : q * (2 : ℝ) ^ (e - t) < 2 ^ 53) :
    m = 2 ^ 52 ∧ t = e - 1 ∧ Exact.nearest (q * 2) = 2 ^ 53 := by
  have large : 2 ^ 52 ≤ m := fits.full.resolve_right (by omega)
  have cast : (2 : ℝ) ^ 52 ≤ m := by exact_mod_cast large
  have within : (reach m e : ℝ) ≤ 2 := by exact_mod_cast reach_le m e
  have next : t = e - 1 := by
    by_contra further
    have power : (2 : ℝ) ^ (2 : ℤ) ≤ (2 : ℝ) ^ (e - t) := zpow_le_zpow_right₀ (by norm_num) (by omega)
    have more : q * (2 : ℝ) ^ (2 : ℤ) ≤ q * (2 : ℝ) ^ (e - t) := mul_le_mul_of_nonneg_left power (by linarith)
    linarith
  rw [next, sub_sub_cancel, zpow_one] at below
  have lowest : m = 2 ^ 52 := by
    by_contra other
    have more : (2 : ℝ) ^ 52 + 1 ≤ m := by exact_mod_cast lt_of_le_of_ne large (Ne.symm other)
    linarith
  refine ⟨lowest, next, Exact.nearest_eq_of_near (by linarith) ?_ (.inl (by norm_num))⟩
  rw [reach, if_pos ⟨lowest, by omega⟩, lowest] at low
  push_cast at low ⊢
  exact abs_le.mpr ⟨by linarith, by linarith⟩

/-- The unit is not larger than that of the number, which would have more bits than there are. -/
private theorem Fits.le_of_full {m : ℕ} {e t : ℤ} (fits : Fits m e) {q : ℝ} (nonneg : 0 ≤ q) (high : q ≤ m + 1 / 2)
    (full : t = -1074 ∨ (2 : ℝ) ^ 52 ≤ q * (2 : ℝ) ^ (e - t)) : t ≤ e := by
  by_contra coarser
  have factor : (m : ℝ) + 1 ≤ 2 ^ 53 := by exact_mod_cast fits.small
  have large := full.resolve_left (by have := fits.low; omega)
  have power : (2 : ℝ) ^ (e - t) ≤ (2 : ℝ) ^ (-1 : ℤ) := zpow_le_zpow_right₀ (by norm_num) (by omega)
  have less : q * (2 : ℝ) ^ (e - t) ≤ q * (2 : ℝ) ^ (-1 : ℤ) := mul_le_mul_of_nonneg_left power nonneg
  rw [zpow_neg_one] at less
  linarith

/-- What lies around a number is rounded to it. -/
theorem Rounds.magnitude_eq_of_around {s : Sign} {u y : UnpackedFloat} {v : ℝ} (rounds : Rounds s v y) (holds : Holds u)
    (around : Around u v) : magnitude y = magnitude u := by
  obtain ⟨t, least, full, below, value⟩ := rounds.even
  cases holds with
  | zero s =>
    obtain rfl : v = 0 := around
    rw [value, zero_div, Exact.nearest_zero, Nat.cast_zero, zero_mul]
    rfl
  | @finite s m e positive fits bounded =>
    obtain ⟨low, high, strict⟩ := (contains_interval_iff positive).mp around
    have some : (1 : ℝ) ≤ m := by exact_mod_cast positive
    have within : (reach m e : ℝ) ≤ 2 := by exact_mod_cast reach_le m e
    have moved : v / (2 : ℝ) ^ t = v / (2 : ℝ) ^ e * (2 : ℝ) ^ (e - t) := by
      rw [zpow_sub₀ (by norm_num)]
      field_simp
    show _ = scaled m e
    rw [value, scaled_eq]
    rw [moved] at full below ⊢
    generalize v / (2 : ℝ) ^ e = q at *
    rcases lt_or_eq_of_le (fits.le_of_full (by linarith) high full) with finer | rfl
    · obtain ⟨rfl, rfl, carried⟩ := fits.carried finer least low below
      rw [sub_sub_cancel, zpow_one, carried, zpow_sub_one₀ (by norm_num)]
      push_cast
      ring
    · have near : |q - m| ≤ 1 / 2 := abs_le.mpr ⟨by linarith, by linarith⟩
      have nearest : Exact.nearest q = m := Exact.nearest_eq_of_near (by linarith) near
        (strict.imp_right fun ⟨left, right⟩ => abs_lt.mpr ⟨by linarith, by linarith⟩)
      rw [sub_self, zpow_zero, mul_one, nearest]

/-- A number has only one factor and one exponent in the form of a word. -/
theorem Fits.unique {m m' : ℕ} {e e' : ℤ} (fits : Fits m e) (fits' : Fits m' e') (same : scaled m e = scaled m' e') :
    m = m' ∧ e = e' := by
  wlog lower : e ≤ e' generalizing m m' e e'
  · obtain ⟨factor, exponent⟩ := this fits' fits same.symm (le_of_not_ge lower)
    exact ⟨factor.symm, exponent.symm⟩
  obtain ⟨k, rfl⟩ := Int.le.dest lower
  have unit : (2 : ℝ) ^ e ≠ 0 := by positivity
  rw [scaled_eq, scaled_eq, zpow_add₀ (by norm_num), zpow_natCast, mul_comm ((2 : ℝ) ^ e), ← mul_assoc,
    mul_left_inj' unit] at same
  have factors : m = m' * 2 ^ k := by exact_mod_cast same
  obtain rfl : k = 0 := by
    by_contra some
    have large : 2 ^ 52 ≤ m' := fits'.full.resolve_right (by have := fits.low; omega)
    have more : 2 ^ 52 * 2 ^ 1 ≤ m' * 2 ^ k := Nat.mul_le_mul large (Nat.pow_le_pow_right (by decide) (Nat.pos_of_ne_zero some))
    have := fits.small
    omega
  simpa using factors

private theorem isMinus_inj {s s' : Sign} (same : isMinus s = isMinus s') : s = s' := by
  cases s <;> cases s' <;> first | rfl | cases same

/-- Finite numbers with the same sign and the same magnitude are the same. -/
theorem Holds.ext {u u' : UnpackedFloat} (holds : Holds u) (holds' : Holds u') (sign : negative u = negative u')
    (same : magnitude u = magnitude u') : u = u' := by
  have some {m : ℕ} {e : ℤ} (positive : 0 < m) : 0 < scaled m e := by
    rw [scaled_eq]
    positivity
  cases holds with
  | zero s =>
    cases holds' with
    | zero s' => rw [isMinus_inj sign]
    | finite s' positive' => exact absurd same (some positive').ne
  | finite s positive fits =>
    cases holds' with
    | zero s' => exact absurd same (some positive).ne'
    | finite s' positive' fits' =>
      obtain ⟨rfl, rfl⟩ := fits.unique fits' same
      rw [isMinus_inj sign]

variable {x : Float} {d d' : Decimal}

/-- A decimal around a number, with its sign, is read as the number. -/
private theorem ofDecimal_eq_of_around (finite : Scalar.isFinite x = true) (sign : d.negative = negative x.toModel.unpack)
    (around : Around x.toModel.unpack |d.value|) : Scalar.ofDecimal d = x := by
  have holds := holds_unpack finite
  obtain ⟨y, holds', sign', same, rounds⟩ := unpack_ofDecimal (around.lt_overflow holds)
  have unpacked : (ofDecimal d).toModel.unpack = x.toModel.unpack :=
    holds'.ext holds (sign'.trans sign) (same.trans (rounds.magnitude_eq_of_around holds around))
  have stored : (ofDecimal d).toModel = x.toModel := by
    rw [← pack_unpack_model (ofDecimal d).toModel, unpacked, pack_unpack_model]
  show ofDecimal d = x
  cases x
  exact congrArg Float.ofModel stored

/-- Every finite number has a shortest decimal, and this lies around it. -/
theorem exists_shortest (finite : Scalar.isFinite x = true) (tie : Tie) :
    ∃ d, Scalar.shortest tie x = .finite d ∧ d.negative = negative x.toModel.unpack ∧ Around x.toModel.unpack |d.value| := by
  have holds := holds_unpack finite
  show ∃ d, shortest tie x = .finite d ∧ _
  rw [shortest, show unpack x = x.toModel.unpack from rfl]
  generalize x.toModel.unpack = u at holds
  cases holds with
  | zero s => exact ⟨_, rfl, rfl, by simp [Around, Decimal.value]⟩
  | @finite s m e positive fits bounded =>
    refine ⟨_, rfl, rfl, ?_⟩
    have wide : (interval m e).num < ((interval m e).high - (interval m e).low) * 10 ^ 16 := by
      have small := fits.small
      simp only [interval, Nat.pow_eq, ← Nat.sub_mul]
      rw [mul_right_comm _ _ (10 ^ 16)]
      refine Nat.mul_lt_mul_of_pos_right ?_ (quotient_one_pos _)
      split_ifs with power
      · simp only [Bool.and_eq_true, decide_eq_true_eq] at power
        omega
      · omega
    rw [abs_value]
    exact Shortest.contains_ofInterval (proper_interval positive e) tie _ wide

/-- A finite number is read back from its shortest decimal, with whatever zeros this is written. -/
theorem ofDecimal_eq_of_shortest (finite : Scalar.isFinite x = true) {tie : Tie} (shown : Scalar.shortest tie x = .finite d)
    (sign : d'.negative = d.negative) (same : d'.value = d.value) : Scalar.ofDecimal d' = x := by
  obtain ⟨_, shown', sign', around⟩ := exists_shortest finite tie
  cases shown.symm.trans shown'
  exact ofDecimal_eq_of_around finite (sign.trans sign') (same ▸ around)

end Binary64

end Seam
