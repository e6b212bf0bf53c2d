import Seam.Proofs.Lane

/-!
Where a path is cut. At most one move is parted, in two that meet at a point on it and share
its filament by their lengths (`Move.Parted`); everything else stays as it is. The way up to
the cut is the length that was asked for, or what is behind before the cut move if that is
more already (`Cut.exists_front`). It can only be more by the moves that stand still, since
those add to the way but are never cut (`Cut.Within.span_le`).
-/
namespace Seam

protected theorem Exact.mul_one (x : Exact) : x * .real 1 = x := by
  show Exact.mul x (.real 1) = x
  cases x with
  | real r => rw [Exact.mul, mul_one]
  | infinite s => rw [Exact.mul, if_neg one_ne_zero, decide_eq_false (not_lt.mpr zero_le_one), Bool.bne_false]
  | undefined => rfl

namespace Move

/-- The move is parted in two that meet at a point on it, and share its filament by their lengths. -/
structure Parted (m a b : Move Exact) : Prop where
  start : a.start = m.start
  meets : ∃ f : ℝ, 0 ≤ f ∧ f ≤ 1 ∧ a.stop = m.start.along m.stop (.real f) ∧ b.start = a.stop
  stop : b.stop = m.stop
  feedRate : a.feedRate = m.feedRate ∧ b.feedRate = m.feedRate
  reach : a.reach + b.reach = m.reach
  extrusion : a.extrusion = m.extrusion * .real (a.reach / m.reach) ∧ b.extrusion = m.extrusion * .real (b.reach / m.reach)

variable {m : Move Exact}

theorem Placed.parted (placed : m.Placed) (some : 0 < m.reach) {f : ℝ} (nonneg : 0 ≤ f) (le_one : f ≤ 1) :
    m.Parted (m.upTo (.real f)) (m.onFrom (.real f)) where
  start := rfl
  meets := ⟨f, nonneg, le_one, rfl, rfl⟩
  stop := rfl
  feedRate := ⟨rfl, rfl⟩
  reach := by rw [placed.reach_upTo nonneg, placed.reach_onFrom le_one]; ring
  extrusion := by
    rw [placed.reach_upTo nonneg, placed.reach_onFrom le_one, mul_div_cancel_right₀ _ some.ne',
      mul_div_cancel_right₀ _ some.ne', ← Exact.real_sub, ← Exact.one_eq]
    exact ⟨rfl, rfl⟩

/-- All of a move is the move. -/
private theorem Placed.upTo_one (placed : m.Placed) : m.upTo (.real 1) = m := by
  have stop := placed.stop_upTo_one
  simp only [Move.upTo, Exact.mul_one] at stop ⊢
  rw [stop]

end Move

namespace Segment

variable {path : List (Segment Exact)}

private theorem Placed.filter_isStill (placed : Placed path) : Placed (path.filter isStill) :=
  fun m mem => placed m (List.mem_filter.mp mem).1

private theorem span_filter_long {m : Move Exact} (placed : m.Placed) (long : m.IsLong) :
    span ((Segment.move m :: path).filter isStill) = span (path.filter isStill) := by
  rw [List.filter_cons_of_neg]
  simpa [isStill] using fun still => placed.le_leastLength_iff.mp still long

private theorem span_filter_still {m : Move Exact} (placed : m.Placed) (still : ¬ m.IsLong) :
    span ((Segment.move m :: path).filter isStill) = m.reach + span (path.filter isStill) := by
  rw [List.filter_cons_of_pos]
  · rfl
  · simpa [isStill] using placed.le_leastLength_iff.mpr still

/-- Where each move is long or has no length at all, standing still takes no way. -/
private theorem Sharp.span_filter_isStill (placed : Placed path) (sharp : Sharp path) : span (path.filter isStill) = 0 := by
  induction path with
  | nil => rfl
  | cons s path ih =>
    cases s with
    | other c => exact ih placed.of_cons sharp
    | move m =>
      obtain ⟨here, others⟩ := List.forall_mem_cons.mp sharp
      by_cases long : m.IsLong
      · rw [span_filter_long placed.head long]
        exact ih placed.of_cons others
      · rw [span_filter_still placed.head long, here.resolve_right long, zero_add]
        exact ih placed.of_cons others

end Segment

namespace Cut

variable {length way : ℝ} {segments : List (Segment Exact)}

/-- A way on which no long move reaches the length can only be longer by the moves that stand still. -/
theorem Within.span_le (within : Within length way segments) (placed : Segment.Placed segments) :
    way + Segment.span segments ≤ max way length + Segment.span (segments.filter Segment.isStill) := by
  induction segments generalizing way with
  | nil => simp
  | cons s rest ih =>
    cases s with
    | other c =>
      rw [Segment.span_cons, Segment.reach_other, zero_add]
      exact ih within placed.of_cons
    | move m =>
      obtain ⟨short, within⟩ := within
      have later := ih within placed.of_cons
      rw [Segment.span_cons, Segment.reach_move]
      by_cases long : m.IsLong
      · -- behind a long move the way is below the length, whatever it was before
        have below : way + m.reach < length := not_le.mp fun reached => short ⟨long, reached⟩
        rw [Segment.span_filter_long placed.head long]
        rw [max_eq_right below.le] at later
        linarith [le_max_right way length]
      · have nonneg := placed.head.reach_nonneg
        rw [Segment.span_filter_still placed.head long]
        have wider : max (way + m.reach) length ≤ max way length + m.reach :=
          max_le (by linarith [le_max_left way length]) (by linarith [le_max_right way length])
        linarith

/-- The path with the cut move in its parts, one behind the other. -/
def rejoined {α : Type} (cut : Cut α) (segments : List (Segment α)) : List (Segment α) :=
  cut.covered ++ segments.drop cut.remainder

/-- The way up to the cut is the length, or what is behind before the cut move if that is more. -/
theorem exists_front (le : length ≤ Segment.span segments) (placed : Segment.Placed segments) :
    ∃ front rest, (Cut.ofLength (.real length) segments).taper = front ++ rest ∧ front <+: segments ∧
      Within length 0 front ∧
        Segment.span (Cut.ofLength (.real length) segments).taper = max (Segment.span front) length := by
  have cases := resume_cases length 0 placed
  rw [Cut.ofLength, Exact.zero_eq]
  rcases cases with ⟨whole, within⟩ | ⟨front, m, back, split, within, long, reached, cut⟩
  · refine ⟨segments, [], ?_, List.prefix_refl _, within, ?_⟩
    · rw [whole, List.append_nil]
    · rw [whole, max_eq_left le]
  · rw [zero_add] at reached cut
    refine ⟨front, _, by rw [cut], split ▸ List.prefix_append .., within, ?_⟩
    have m_placed : m.Placed := (split ▸ placed).of_append.2.head
    -- the cut move is taken as far as the length asks for, if it asks for any of it
    have part : max 0 (min ((length - Segment.span front) / m.reach) 1) * m.reach =
        max 0 (length - Segment.span front) := by
      rw [max_mul_of_nonneg _ _ long.reach_pos.le, min_mul_of_nonneg _ _ long.reach_pos.le, zero_mul,
        div_mul_cancel₀ _ long.reach_ne_zero, one_mul, min_eq_left (by linarith)]
    rw [cut]
    simp only [Segment.span_append, Segment.span_cons, Segment.span_nil, Segment.reach_move,
      m_placed.reach_upTo (le_max_left ..), part, add_zero]
    rw [← max_add_add_left, add_zero, add_sub_cancel]

/-- The cut parts no move of the path, or a single one, of which something is left; nothing else is changed. -/
def PartsOnce (segments : List (Segment Exact)) (cut : Cut Exact) : Prop :=
  cut.tail = none ∧ cut.rejoined segments = segments ∨
    ∃ front m a b back, segments = front ++ .move m :: back ∧ m.Parted a b ∧ 0 < b.reach ∧
      cut = ⟨front ++ [.move a], some b, front.length + 1⟩ ∧
        cut.rejoined segments = front ++ .move a :: .move b :: back

/-- What a cut of a path at a length should be. -/
structure Faithful (segments : List (Segment Exact)) (length : ℝ) (cut : Cut Exact) : Prop where
  parts : PartsOnce segments cut
  filament : Segment.Fed segments →
    Segment.Fed (cut.rejoined segments) ∧ Segment.total (cut.rejoined segments) = Segment.total segments
  reaches : .real length ≤ Segment.pathLength cut.taper
  exceeds : Segment.pathLength cut.taper ≤ .real length + Segment.pathLength (cut.taper.filter Segment.isStill)
  /-- The length is met if each move is long or has no length at all. -/
  meets : Segment.Sharp segments → Segment.pathLength cut.taper = .real length

private theorem partsOnce_ofLength (length : ℝ) (placed : Segment.Placed segments) :
    PartsOnce segments (Cut.ofLength (.real length) segments) := by
  have cases := resume_cases length 0 placed
  rw [Cut.ofLength, Exact.zero_eq]
  rcases cases with ⟨whole, _⟩ | ⟨front, m, back, split, _, long, _, cut⟩
  · simp [PartsOnce, whole, rejoined, covered]
  · have behind : segments.drop (front.length + 1) = back := by
      rw [split, ← List.singleton_append, ← List.append_assoc]
      exact List.drop_left' (by simp)
    have m_placed : m.Placed := (split ▸ placed).of_append.2.head
    generalize fraction : max 0 (min ((length - (0 + Segment.span front)) / m.reach) 1) = f at cut
    have nonneg : 0 ≤ f := fraction ▸ le_max_left ..
    have le_one : f ≤ 1 := fraction ▸ max_le zero_le_one (min_le_right ..)
    rcases le_one.eq_or_lt with rfl | less
    · refine .inl ?_
      rw [cut]
      simp [rejoined, covered, m_placed.upTo_one, split]
    · refine .inr ⟨front, m, _, _, back, split, m_placed.parted long.reach_pos nonneg le_one, ?_, ?_, ?_⟩
      · rw [m_placed.reach_onFrom le_one]
        exact mul_pos (sub_pos.mpr less) long.reach_pos
      · simp only [cut, if_pos less]
      · simp [cut, if_pos less, rejoined, covered, behind]

private theorem refines_rejoined (length : ℝ) (placed : Segment.Placed segments) :
    Segment.Refines segments ((Cut.ofLength (.real length) segments).rejoined segments) := by
  generalize shown : Cut.ofLength (.real length) segments = cut
  have front : Segment.Refines (segments.take cut.remainder) cut.covered := shown ▸ refines_covered placed
  have back : Segment.Refines (segments.drop cut.remainder) (segments.drop cut.remainder) :=
    Segment.refines_self fun m mem => placed m (List.mem_of_mem_drop mem)
  have whole := front.append back
  rwa [List.take_append_drop] at whole

private theorem faithful_ofLength (placed : Segment.Placed segments) (nonneg : 0 ≤ length)
    (le : length ≤ Segment.span segments) :
    Faithful segments length (Cut.ofLength (.real length) segments) := by
  have refines := refines_rejoined length placed
  obtain ⟨front, rest, taper, begins, within, span⟩ := exists_front le placed
  have taper_placed : Segment.Placed (Cut.ofLength (.real length) segments).taper :=
    (refines_covered placed).placed.of_append.1
  have front_placed : Segment.Placed front := (taper ▸ taper_placed).of_append.1
  have bound := within.span_le front_placed
  rw [zero_add, max_eq_right nonneg] at bound
  refine ⟨partsOnce_ofLength length placed, fun fed => ⟨refines.fed fed, refines.total_eq fed⟩, ?_, ?_, fun sharp => ?_⟩
  · rw [taper_placed.pathLength, span, Exact.real_le]
    exact le_max_right ..
  · have still : Segment.span (front.filter Segment.isStill) ≤
        Segment.span ((Cut.ofLength (.real length) segments).taper.filter Segment.isStill) := by
      rw [taper, List.filter_append, Segment.span_append]
      exact le_add_of_nonneg_right (taper ▸ taper_placed).of_append.2.filter_isStill.span_nonneg
    rw [taper_placed.filter_isStill.pathLength, taper_placed.pathLength, span, Exact.real_add, Exact.real_le]
    exact max_le (by linarith) (by linarith [front_placed.filter_isStill.span_nonneg])
  · have front_sharp : Segment.Sharp front := fun m mem => sharp m ((begins.filterMap _).subset mem)
    rw [front_sharp.span_filter_isStill front_placed, add_zero] at bound
    rw [taper_placed.pathLength, span, max_eq_right bound]

/-- A path is cut faithfully at every length that it has, and in particular at the overlap that a loop of its length
    gets. -/
theorem faithful_of_ofLength (placed : Segment.Placed segments) :
    (∀ length : ℝ, 0 ≤ length → .real length ≤ Segment.pathLength segments →
      Faithful segments length (Cut.ofLength (.real length) segments)) ∧
    ∀ o : ℝ, 0 < o → ∃ l : ℝ, Segment.pathLength segments = .real l ∧
      Segment.effectiveOverlap (.real o) (Segment.pathLength segments) = .real (min o (l / 3)) ∧
        Faithful segments (min o (l / 3))
          (Cut.ofLength (Segment.effectiveOverlap (.real o) (Segment.pathLength segments)) segments) := by
  rw [placed.pathLength]
  refine ⟨fun length nonneg le => faithful_ofLength placed nonneg ((Exact.real_le ..).mp le), fun o positive => ?_⟩
  have third := div_nonneg placed.span_nonneg zero_le_three
  have overlap : Segment.effectiveOverlap (Exact.real o) (Exact.real (Segment.span segments)) =
      Exact.real (min o (Segment.span segments / 3)) := by
    rw [Segment.effectiveOverlap, Exact.three_eq, Exact.real_div three_ne_zero, Exact.min_real]
  rw [overlap]
  refine ⟨_, rfl, rfl, faithful_ofLength placed (le_min positive.le third) ?_⟩
  exact (min_le_right ..).trans (div_le_self placed.span_nonneg (by norm_num))

/-- The loop that goes out in two moves is cut in the middle of the second, where its overlap ends. -/
theorem faithful_of_mixed :
    Segment.Placed Lane.mixedPath ∧ (0 : ℝ) < 2 ∧
      let cut : Cut Exact :=
        ⟨[.move (Lane.move 0 1 1), .other (Lane.switch .absolute), .move (Lane.move 1 2 1)], some (Lane.move 2 3 1), 3⟩
      Cut.ofLength (.real 2) Lane.mixedPath = cut ∧ Faithful Lane.mixedPath 2 cut ∧
        Segment.pathLength cut.taper = .real 2 := by
  have placed : Segment.Placed Lane.mixedPath := Lane.traced_mixed.placed Lane.physicalKnown_spot
  obtain ⟨l, loop, overlap, faithful⟩ := (faithful_of_ofLength placed).2 2 two_pos
  obtain rfl : l = 6 := Exact.real.inj (loop.symm.trans Lane.pathLength_mixed)
  have third : min (2 : ℝ) (6 / 3) = 2 := by norm_num
  rw [third] at overlap faithful
  have cut := Lane.cut_mixed
  rw [Weave.cut, Lane.overlap_mixed] at cut
  rw [overlap, cut] at faithful
  refine ⟨placed, two_pos, cut, faithful, faithful.meets ?_⟩
  have long {a b d : ℝ} (apart : 1 ≤ |a - b|) : (Lane.move a b d).IsLong := by
    rw [Move.IsLong, Move.reach, Lane.length_move, Exact.toReal_real]
    exact lt_of_lt_of_le (by norm_num) apart
  exact List.forall_mem_cons.mpr ⟨.inr (long (by norm_num)), List.forall_mem_cons.mpr ⟨.inr (long (by norm_num)),
    List.forall_mem_cons.mpr ⟨.inr (long (by norm_num)), List.forall_mem_nil _⟩⟩⟩

end Cut

end Seam
