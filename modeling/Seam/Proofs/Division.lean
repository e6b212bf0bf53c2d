import Seam.Proofs.Section

/-!
Paths whose moves are divided. A move is divided into moves that together lead
where it leads, as far, with as much filament and at its feed rate (`Divided`); a
path refines another if each of its moves is divided (`Refines`). The section
that a loop is cut to, with what is left of the cut move, refines the loop's
beginning (`Cut.refines_covered`), and so does the section with its moves taken
in steps (`Segment.refines_resample`).
-/
namespace Seam

/-- The moves take the place of one move. -/
structure Move.Divided (m : Move Exact) (parts : List (Move Exact)) : Prop where
  stop : ∃ front last, parts = front ++ [last] ∧ last.stop = m.stop
  feedRate : ∀ part ∈ parts, part.feedRate = m.feedRate
  placed : ∀ part ∈ parts, part.Placed
  reach : (parts.map Move.reach).sum = m.reach
  isReal : m.extrusion.IsReal → ∀ part ∈ parts, part.extrusion.IsReal
  extrusion : m.extrusion.IsReal → (parts.map (·.extrusion.toReal)).sum = m.extrusion.toReal

/-- Each move of the first path is divided in the second; the other lines are the same. -/
inductive Segment.Refines : List (Segment Exact) → List (Segment Exact) → Prop
  | nil : Refines [] []
  | other {c : Command Exact} {path fine : List (Segment Exact)} (rest : Refines path fine) :
      Refines (.other c :: path) (.other c :: fine)
  | move {m : Move Exact} {parts : List (Move Exact)} {path fine : List (Segment Exact)} (divided : m.Divided parts)
      (rest : Refines path fine) : Refines (.move m :: path) (parts.map .move ++ fine)

namespace Move

variable {m : Move Exact}

private theorem Placed.divided_self (placed : m.Placed) : m.Divided [m] where
  stop := ⟨[], m, rfl, rfl⟩
  feedRate part mem := by rw [List.mem_singleton.mp mem]
  placed part mem := by rw [List.mem_singleton.mp mem]; exact placed
  reach := by simp
  isReal real part mem := by rw [List.mem_singleton.mp mem]; exact real
  extrusion real := by simp

private theorem Placed.divided_whole (placed : m.Placed) : m.Divided [m.upTo (.real 1)] where
  stop := ⟨[], _, rfl, placed.stop_upTo_one⟩
  feedRate part mem := by rw [List.mem_singleton.mp mem]; rfl
  placed part mem := by rw [List.mem_singleton.mp mem]; exact placed.upTo 1
  reach := by simp [placed.reach_upTo zero_le_one]
  isReal real part mem := by
    obtain ⟨e, real⟩ := real
    rw [List.mem_singleton.mp mem]
    simp [Move.upTo, real]
  extrusion real := by
    obtain ⟨e, real⟩ := real
    simp [Move.upTo, real]

private theorem Placed.divided_at (placed : m.Placed) {f : ℝ} (nonneg : 0 ≤ f) (le_one : f ≤ 1) :
    m.Divided [m.upTo (.real f), m.onFrom (.real f)] where
  stop := ⟨[m.upTo (.real f)], m.onFrom (.real f), rfl, rfl⟩
  feedRate part mem := by
    rcases List.mem_pair.mp mem with rfl | rfl <;> rfl
  placed part mem := by
    rcases List.mem_pair.mp mem with rfl | rfl
    · exact placed.upTo f
    · exact placed.onFrom f
  reach := by
    simp only [List.map_cons, List.map_nil, List.sum_cons, List.sum_nil, add_zero, placed.reach_upTo nonneg,
      placed.reach_onFrom le_one]
    ring
  isReal real part mem := by
    obtain ⟨e, real⟩ := real
    rcases List.mem_pair.mp mem with rfl | rfl <;> simp [Move.upTo, Move.onFrom, real]
  extrusion real := by
    obtain ⟨e, real⟩ := real
    simp [Move.upTo, Move.onFrom, real]
    ring

private theorem Placed.divided_steps (placed : m.Placed) (n : ℕ) :
    m.Divided ((List.range (n + 1)).map (m.step (n + 1))) := by
  have count : ((n + 1 : ℕ) : ℝ) ≠ 0 := Nat.cast_ne_zero.mpr n.succ_ne_zero
  have shares (r : ℝ) : ((List.range (n + 1)).map fun _ => r / (n + 1 : ℕ)).sum = r := by
    rw [List.map_const', List.sum_replicate, List.length_range, nsmul_eq_mul, mul_div_cancel₀ r count]
  constructor
  · exact ⟨_, _, by rw [List.range_succ, List.map_append]; rfl, placed.stop_step_last n⟩
  · intro part mem
    obtain ⟨i, _, rfl⟩ := List.mem_map.mp mem
    rfl
  · intro part mem
    obtain ⟨i, _, rfl⟩ := List.mem_map.mp mem
    exact placed.step (n + 1) i n.succ_ne_zero
  · rw [List.map_map]
    refine Eq.trans (congrArg List.sum (List.map_congr_left fun i _ => ?_)) (shares m.reach)
    exact placed.reach_step i n.succ_ne_zero
  · rintro ⟨e, real⟩ part mem
    obtain ⟨i, _, rfl⟩ := List.mem_map.mp mem
    exact ⟨e / (n + 1 : ℕ), by simp only [Move.step, real, Exact.ofNat_eq, Exact.real_div count]⟩
  · rintro ⟨e, real⟩
    rw [List.map_map, real, Exact.toReal_real]
    refine Eq.trans (congrArg List.sum (List.map_congr_left fun i _ => ?_)) (shares e)
    simp only [Function.comp_apply, Move.step, real, Exact.ofNat_eq, Exact.real_div count, Exact.toReal_real]

theorem Placed.divided (placed : m.Placed) {resolution : ℝ} (positive : 0 < resolution) :
    m.Divided (m.steps (.real resolution)) := by
  rcases placed.steps_cases positive with whole | ⟨n, steps⟩
  · rw [whole]; exact placed.divided_self
  · rw [steps]; exact placed.divided_steps n

end Move

namespace Segment

/-- The filament that is pushed along a segment, as a real. -/
noncomputable def filament : Segment Exact → ℝ
  | .move m => m.extrusion.toReal
  | .other _ => 0

/-- The filament that is pushed along a path, as a real. -/
noncomputable def total (segments : List (Segment Exact)) : ℝ := (segments.map filament).sum

@[simp] theorem total_nil : total [] = 0 := rfl

@[simp] theorem total_cons (s : Segment Exact) (segments : List (Segment Exact)) :
    total (s :: segments) = s.filament + total segments := rfl

theorem total_append (front back : List (Segment Exact)) : total (front ++ back) = total front + total back := by
  simp [total]

/-- The filament of every move of the path is a real. -/
def Fed (segments : List (Segment Exact)) : Prop := ∀ m, .move m ∈ segments → m.extrusion.IsReal

theorem refines_self {path : List (Segment Exact)} (placed : Placed path) : Refines path path := by
  induction path with
  | nil => exact .nil
  | cons s path ih =>
    cases s with
    | other c => exact .other (ih placed.of_cons)
    | move m => exact .move placed.head.divided_self (ih placed.of_cons)

theorem refines_resample {path : List (Segment Exact)} {resolution : ℝ} (placed : Placed path)
    (positive : 0 < resolution) : Refines path (resample (.real resolution) path) := by
  induction path with
  | nil => exact .nil
  | cons s path ih =>
    cases s with
    | other c => exact .other (ih placed.of_cons)
    | move m => exact .move (placed.head.divided positive) (ih placed.of_cons)

namespace Refines

variable {path fine more morefine : List (Segment Exact)}

theorem append (front : Refines path fine) (back : Refines more morefine) :
    Refines (path ++ more) (fine ++ morefine) := by
  induction front with
  | nil => exact back
  | other _ ih => exact .other ih
  | move divided _ ih => rw [List.append_assoc]; exact .move divided ih

theorem eq_nil (refines : Refines [] fine) : fine = [] := by
  cases refines
  rfl

theorem placed (refines : Refines path fine) : Placed fine := by
  induction refines with
  | nil => intro m mem; cases mem
  | other _ ih =>
    intro m mem
    rcases List.mem_cons.mp mem with here | later
    · cases here
    · exact ih m later
  | move divided _ ih =>
    refine Placed.append (fun m mem => ?_) ih
    obtain ⟨part, mem, same⟩ := List.mem_map.mp mem
    cases same
    exact divided.placed m mem

theorem other_mem_iff (refines : Refines path fine) (c : Command Exact) : .other c ∈ fine ↔ .other c ∈ path := by
  induction refines with
  | nil => exact Iff.rfl
  | other _ ih => simp only [List.mem_cons, ih]
  | move _ _ ih => simp [ih]

theorem plain_iff (refines : Refines path fine) : Plain fine ↔ Plain path := by
  simp only [Plain, refines.other_mem_iff]

theorem span_eq (refines : Refines path fine) : span fine = span path := by
  induction refines with
  | nil => rfl
  | other _ ih => rw [span_cons, span_cons, ih]
  | move divided _ ih =>
    rw [span_append, span_cons, ih, reach_move, ← divided.reach, span, List.map_map]
    rfl

theorem fed (refines : Refines path fine) (fed : Fed path) : Fed fine := by
  induction refines with
  | nil => exact fed
  | other _ ih =>
    intro m mem
    rcases List.mem_cons.mp mem with here | later
    · cases here
    · exact ih (fun m mem => fed m (List.mem_cons_of_mem _ mem)) m later
  | move divided _ ih =>
    intro m mem
    rcases List.mem_append.mp mem with here | later
    · obtain ⟨part, mem, same⟩ := List.mem_map.mp here
      cases same
      exact divided.isReal (fed _ (List.mem_cons_self ..)) m mem
    · exact ih (fun m mem => fed m (List.mem_cons_of_mem _ mem)) m later

theorem total_eq (refines : Refines path fine) (fed : Fed path) : total fine = total path := by
  induction refines with
  | nil => rfl
  | other _ ih =>
    have rest := ih fun m mem => fed m (List.mem_cons_of_mem _ mem)
    simpa [total] using rest
  | move divided _ ih =>
    have here := divided.extrusion (fed _ (List.mem_cons_self ..))
    have rest := ih fun m mem => fed m (List.mem_cons_of_mem _ mem)
    simp only [total, List.map_append, List.map_map, List.sum_append, List.map_cons, List.sum_cons] at rest ⊢
    rw [rest]
    exact congrArg (· + _) here

/-- A path that refines another leads where the other one does. -/
theorem along (refines : Refines path fine) (p : Pose Exact) : p.along fine = p.along path := by
  induction refines generalizing p with
  | nil => rfl
  | other _ ih => exact ih _
  | @move m parts path fine divided _ ih =>
    obtain ⟨front, last, split, stop⟩ := divided.stop
    have rates := divided.feedRate
    rw [split] at rates
    have lastRate : last.feedRate = m.feedRate := rates last (List.mem_append_right _ (List.mem_singleton_self _))
    have frontRates : ∀ part ∈ front, part.feedRate = m.feedRate :=
      fun part mem => rates part (List.mem_append_left _ mem)
    have here : p.after (.move last) = p.after (.move m) := by simp only [Pose.after, stop, lastRate]
    rw [Pose.along_append, split, Pose.along_moves p frontRates lastRate, here]
    exact ih _

end Refines

end Segment

namespace Cut

/-- The cut path with what is left of the cut move refines the lines that it covers. -/
theorem refines_covered {length : ℝ} {segments : List (Segment Exact)} (placed : Segment.Placed segments) :
    let cut := Cut.ofLength (.real length) segments
    Segment.Refines (segments.take cut.remainder) cut.covered := by
  have cases := resume_cases length 0 placed
  rw [Cut.ofLength, Exact.zero_eq]
  rcases cases with ⟨whole, _⟩ | ⟨front, m, back, split, _, long, _, cut⟩
  · simpa [whole, covered] using Segment.refines_self placed
  · have taken : segments.take (front.length + 1) = front ++ [.move m] := by
      rw [split, ← List.singleton_append, ← List.append_assoc]
      exact List.take_left' (by simp)
    have front_placed : Segment.Placed front := (split ▸ placed).of_append.1
    have m_placed : m.Placed := (split ▸ placed).of_append.2.head
    simp only [cut, taken, covered, List.append_assoc]
    refine (Segment.refines_self front_placed).append ?_
    generalize fraction : max 0 (min ((length - (0 + Segment.span front)) / m.reach) 1) = f
    have nonneg : 0 ≤ f := fraction ▸ le_max_left ..
    have le_one : f ≤ 1 := fraction ▸ max_le zero_le_one (min_le_right ..)
    split
    case isTrue => exact .move (m_placed.divided_at nonneg le_one) .nil
    case isFalse whole =>
      rw [le_antisymm le_one (not_lt.mp whole)]
      exact .move m_placed.divided_whole .nil

end Cut

end Seam
