import Seam.Loop.Cut
import Seam.Proofs.Exact

/-!
Points, moves and their steps in exact arithmetic. A point whose coordinates are
known is a point of reals (`isKnown_iff`), a fraction of the way between two of
them is as far as the fraction says (`gap_between`), and the steps of a move
lead to where the move leads (`stop_step_last`), one as long as the other
(`reach_step`).
-/
namespace Seam

namespace Point

/-- A point of reals as a point of exact numbers. -/
def exact (p : Point ℝ) : Point Exact := ⟨.real p.x, .real p.y, .real p.z⟩

noncomputable def gap (p q : Point ℝ) : ℝ :=
  Real.sqrt ((p.x - q.x) * (p.x - q.x) + (p.y - q.y) * (p.y - q.y) + (p.z - q.z) * (p.z - q.z))

/-- The point at a fraction of the way between two points of reals. -/
def between (p q : Point ℝ) (t : ℝ) : Point ℝ :=
  ⟨p.x + (q.x - p.x) * t, p.y + (q.y - p.y) * t, p.z + (q.z - p.z) * t⟩

variable (p q : Point ℝ) (s t : ℝ)

theorem isKnown_iff (p : Point Exact) : p.isKnown = true ↔ ∃ q : Point ℝ, p = q.exact := by
  obtain ⟨x, y, z⟩ := p
  simp only [isKnown, Bool.and_eq_true, Exact.isFinite_iff]
  constructor
  · rintro ⟨⟨⟨a, rfl⟩, ⟨b, rfl⟩⟩, ⟨c, rfl⟩⟩
    exact ⟨⟨a, b, c⟩, rfl⟩
  · rintro ⟨q, same⟩
    cases same
    exact ⟨⟨⟨_, rfl⟩, ⟨_, rfl⟩⟩, ⟨_, rfl⟩⟩

private theorem gap_nonneg : 0 ≤ p.gap q := Real.sqrt_nonneg _

theorem distance_exact : p.exact.distance q.exact = .real (p.gap q) := by
  have nonneg : 0 ≤ (p.x - q.x) * (p.x - q.x) + (p.y - q.y) * (p.y - q.y) + (p.z - q.z) * (p.z - q.z) :=
    add_nonneg (add_nonneg (mul_self_nonneg _) (mul_self_nonneg _)) (mul_self_nonneg _)
  simp only [distance, exact, Exact.real_sub, Exact.real_mul, Exact.real_add, Exact.sqrt_real nonneg, gap]

theorem along_exact : p.exact.along q.exact (.real t) = (p.between q t).exact := by
  show Point.mk (_ + (_ - _) * _) (_ + (_ - _) * _) (_ + (_ - _) * _) = _
  simp only [exact, between, Exact.real_sub, Exact.real_mul, Exact.real_add]

theorem between_zero : p.between q 0 = p := by
  simp only [between, mul_zero, add_zero]

theorem between_one : p.between q 1 = q := by
  simp only [between, mul_one, add_sub_cancel]

theorem gap_between : (p.between q s).gap (p.between q t) = |t - s| * p.gap q := by
  have scaled (a b : ℝ) : a + (b - a) * s - (a + (b - a) * t) = (t - s) * (a - b) := by ring
  simp only [gap, between, scaled]
  have factor (a b c u : ℝ) :
      u * a * (u * a) + u * b * (u * b) + u * c * (u * c) = u * u * (a * a + b * b + c * c) := by ring
  rw [factor, Real.sqrt_mul (mul_self_nonneg _), Real.sqrt_mul_self_eq_abs]

end Point

namespace Move

/-- The ends of the move are known. -/
def Placed (m : Move Exact) : Prop := ∃ p q : Point ℝ, m.start = p.exact ∧ m.stop = q.exact

noncomputable def reach (m : Move Exact) : ℝ := m.length.toReal

variable {m : Move Exact}

theorem Placed.length (placed : m.Placed) : m.length = .real m.reach := by
  obtain ⟨p, q, start, stop⟩ := placed
  simp [reach, Move.length, start, stop, Point.distance_exact]

theorem Placed.reach_nonneg (placed : m.Placed) : 0 ≤ m.reach := by
  obtain ⟨p, q, start, stop⟩ := placed
  simpa [reach, Move.length, start, stop, Point.distance_exact] using Point.gap_nonneg p q

/-- The move does not stand still. -/
def IsLong (m : Move Exact) : Prop := 1e-9 < m.reach

theorem IsLong.reach_pos (long : m.IsLong) : 0 < m.reach := lt_trans (by norm_num) long

theorem IsLong.reach_ne_zero (long : m.IsLong) : m.reach ≠ 0 := ne_of_gt long.reach_pos

theorem Placed.leastLength_lt_iff (placed : m.Placed) : Segment.leastLength < m.length ↔ m.IsLong := by
  rw [placed.length, Segment.leastLength, Exact.ofPlaces_billionth, Exact.real_lt, IsLong]

theorem Placed.le_leastLength_iff (placed : m.Placed) : m.length ≤ Segment.leastLength ↔ ¬ m.IsLong := by
  rw [placed.length, Segment.leastLength, Exact.ofPlaces_billionth, Exact.real_le, IsLong, not_lt]

theorem Placed.upTo (placed : m.Placed) (f : ℝ) : (m.upTo (.real f)).Placed := by
  obtain ⟨p, q, start, stop⟩ := placed
  exact ⟨p, p.between q f, start, by simp only [Move.upTo, start, stop, Point.along_exact]⟩

theorem Placed.onFrom (placed : m.Placed) (f : ℝ) : (m.onFrom (.real f)).Placed := by
  obtain ⟨p, q, start, stop⟩ := placed
  exact ⟨p.between q f, q, by simp only [Move.onFrom, start, stop, Point.along_exact], stop⟩

theorem Placed.stop_upTo_one (placed : m.Placed) : (m.upTo (.real 1)).stop = m.stop := by
  obtain ⟨p, q, start, stop⟩ := placed
  simp only [Move.upTo, start, stop, Point.along_exact, Point.between_one]

theorem Placed.reach_upTo (placed : m.Placed) {f : ℝ} (nonneg : 0 ≤ f) :
    (m.upTo (.real f)).reach = f * m.reach := by
  obtain ⟨p, q, start, stop⟩ := placed
  have whole := Point.gap_between p q 0 f
  rw [Point.between_zero, sub_zero, abs_of_nonneg nonneg] at whole
  simpa [reach, Move.length, Move.upTo, start, stop, Point.along_exact, Point.distance_exact] using whole

theorem Placed.reach_onFrom (placed : m.Placed) {f : ℝ} (le_one : f ≤ 1) :
    (m.onFrom (.real f)).reach = (1 - f) * m.reach := by
  obtain ⟨p, q, start, stop⟩ := placed
  have rest := Point.gap_between p q f 1
  rw [Point.between_one, abs_of_nonneg (sub_nonneg.mpr le_one)] at rest
  simpa [reach, Move.length, Move.onFrom, start, stop, Point.along_exact, Point.distance_exact] using rest

section
variable {n i : ℕ}

theorem Placed.step (placed : m.Placed) (n i : ℕ) (some : n ≠ 0) : (m.step n i).Placed := by
  obtain ⟨p, q, start, stop⟩ := placed
  have nonzero : (n : ℝ) ≠ 0 := Nat.cast_ne_zero.mpr some
  refine ⟨p.between q (i / n), p.between q ((i + 1 : ℕ) / n), ?_, ?_⟩
  · simp only [Move.step, start, stop, Exact.ofNat_eq, Exact.real_div nonzero, Point.along_exact]
  · simp only [Move.step, start, stop, Exact.ofNat_eq, Exact.real_div nonzero, Point.along_exact]

theorem Placed.stop_step_last (placed : m.Placed) (n : ℕ) : (m.step (n + 1) n).stop = m.stop := by
  obtain ⟨p, q, start, stop⟩ := placed
  have nonzero : ((n + 1 : ℕ) : ℝ) ≠ 0 := Nat.cast_ne_zero.mpr (Nat.succ_ne_zero n)
  simp only [Move.step, start, stop, Exact.ofNat_eq, Exact.real_div nonzero, Point.along_exact, div_self nonzero,
    Point.between_one]

theorem Placed.reach_step (placed : m.Placed) (i : ℕ) (some : n ≠ 0) : (m.step n i).reach = m.reach / n := by
  obtain ⟨p, q, start, stop⟩ := placed
  have nonzero : (n : ℝ) ≠ 0 := Nat.cast_ne_zero.mpr some
  have apart : |((i + 1 : ℕ) : ℝ) / n - i / n| = 1 / n := by
    rw [← sub_div, Nat.cast_succ, add_sub_cancel_left, abs_of_nonneg (by positivity)]
  have share := Point.gap_between p q (i / n) ((i + 1 : ℕ) / n)
  rw [apart] at share
  simp only [reach, Move.length, Move.step, start, stop, Exact.ofNat_eq, Exact.real_div nonzero, Point.along_exact,
    Point.distance_exact, Exact.toReal_real, share]
  ring

end

/-- A move stays as it is, or becomes one or more equal steps. -/
theorem Placed.steps_cases (placed : m.Placed) {resolution : ℝ} (positive : 0 < resolution) :
    m.steps (.real resolution) = [m] ∨
      ∃ n, m.steps (.real resolution) = (List.range (n + 1)).map (m.step (n + 1)) := by
  rw [Move.steps, placed.length, Exact.real_div (ne_of_gt positive), Exact.ceil_real]
  split
  case isFalse => exact .inl rfl
  case isTrue longer =>
    have some : 0 < ⌈m.reach / resolution⌉₊ :=
      Nat.ceil_pos.mpr (div_pos (lt_trans positive ((Exact.real_lt ..).mp longer)) positive)
    obtain ⟨n, count⟩ := Nat.exists_eq_succ_of_ne_zero (Nat.ne_of_gt some)
    exact .inr ⟨n, by simp only [count]⟩

end Move

end Seam
