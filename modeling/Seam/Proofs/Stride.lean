import Seam.Proofs.Picture
import Seam.Proofs.Shape
import Seam.Proofs.Slip

/-!
Paths in steps. A move that is longer than the resolution becomes the least number of equal
steps that are not, one from where the other ends (`Move.Placed.stepped`), and everything
else stays in its place (`Segment.Stepped`). So no step is longer than the resolution, a path
in steps leads as far as before and with as much filament, and there is nothing in it to be
divided once more (`Segment.resampled_of_resample`).
-/
namespace Seam

namespace Move

/-- The move in the least number of equal steps that are no longer than the resolution. -/
structure Stepped (r : ℝ) (m : Move Exact) (parts : List (Move Exact)) : Prop where
  least : IsLeast {n : ℕ | 0 < n ∧ m.reach / n ≤ r} parts.length
  chained : Chained m.start parts m.stop
  length : ∀ part ∈ parts, part.length = .real (m.reach / parts.length)
  share : ∀ part ∈ parts, part.extrusion = m.extrusion / .real parts.length
  extrusion : m.extrusion.IsReal → Scalar.sum (parts.map (·.extrusion)) = m.extrusion
  feedRate : ∀ part ∈ parts, part.feedRate = m.feedRate

/-- Steps one after the other lead from fraction to fraction. -/
private theorem chained_steps {α : Type} [Scalar α] (m : Move α) (n i k : ℕ) :
    Chained (m.start.along m.stop (Scalar.ofNat i / Scalar.ofNat n)) ((List.range' i k).map (m.step n))
      (m.start.along m.stop (Scalar.ofNat (i + k) / Scalar.ofNat n)) := by
  induction k generalizing i with
  | zero => exact .nil _
  | succ k ih =>
    have further : i + (k + 1) = i + 1 + k := by omega
    rw [List.range'_succ, List.map_cons, further]
    exact .cons rfl (ih (i + 1))

variable {m : Move Exact} {r : ℝ}

private theorem Placed.steps_of_le (placed : m.Placed) (short : m.reach ≤ r) : m.steps (.real r) = [m] := by
  rw [Move.steps, if_neg]
  rw [placed.length, Exact.real_lt]
  exact not_lt.mpr short

private theorem Placed.steps_of_lt (placed : m.Placed) (positive : 0 < r) (longer : r < m.reach) :
    m.steps (.real r) = (List.range ⌈m.reach / r⌉₊).map (m.step ⌈m.reach / r⌉₊) := by
  rw [Move.steps, placed.length, if_pos ((Exact.real_lt ..).mpr longer), Exact.real_div positive.ne', Exact.ceil_real]

/-- The ceiling is the least number of steps that are short enough. -/
private theorem isLeast_ceil (positive : 0 < r) {d : ℝ} (some : 0 < d) : IsLeast {n : ℕ | 0 < n ∧ d / n ≤ r} ⌈d / r⌉₊ := by
  have enough {n : ℕ} (positive' : 0 < n) : d / n ≤ r ↔ d / r ≤ n := by
    rw [div_le_iff₀ (Nat.cast_pos.mpr positive'), div_le_iff₀ positive, mul_comm]
  have any : 0 < ⌈d / r⌉₊ := Nat.ceil_pos.mpr (div_pos some positive)
  exact ⟨⟨any, (enough any).mpr (Nat.le_ceil _)⟩, fun n fits => Nat.ceil_le.mpr ((enough fits.1).mp fits.2)⟩

/-- A move that is longer than the resolution is divided into the least number of steps. -/
theorem Placed.stepped (placed : m.Placed) (positive : 0 < r) (longer : r < m.reach) :
    m.Stepped r (m.steps (.real r)) := by
  have divided := placed.divided positive
  have least := isLeast_ceil positive (positive.trans longer)
  rw [placed.steps_of_lt positive longer] at divided ⊢
  generalize ⌈m.reach / r⌉₊ = n at divided least ⊢
  have some : n ≠ 0 := least.1.1.ne'
  have count : ((List.range n).map (m.step n)).length = n := by rw [List.length_map, List.length_range]
  rw [← count] at least
  refine ⟨least, ?_, ?_, ?_, fun real => ?_, divided.feedRate⟩
  · have chained := m.chained_steps n 0 n
    obtain ⟨p, q, start, stop⟩ := placed
    have nonzero : (n : ℝ) ≠ 0 := Nat.cast_ne_zero.mpr some
    simp only [start, stop, zero_add, Exact.ofNat_eq, Exact.real_div nonzero, Nat.cast_zero, zero_div, div_self nonzero,
      Point.along_exact, Point.between_zero, Point.between_one, ← List.range_eq_range'] at chained ⊢
    exact chained
  · intro part mem
    rw [count]
    obtain ⟨i, _, rfl⟩ := List.mem_map.mp mem
    rw [(placed.step n i some).length, placed.reach_step i some]
  · intro part mem
    rw [count]
    obtain ⟨i, _, rfl⟩ := List.mem_map.mp mem
    rfl
  · have shares : ((List.range n).map (m.step n)).map (·.extrusion) =
        (((List.range n).map (m.step n)).map (·.extrusion.toReal)).map Exact.real := by
      rw [List.map_map (l := (List.range n).map (m.step n))]
      exact List.map_congr_left fun part mem => (divided.isReal real part mem).eq
    rw [shares, Exact.sum_real, divided.extrusion real, ← real.eq]

end Move

namespace Segment

/-- What becomes of a segment in steps: it stays as it is, or is a move that is longer than the resolution. -/
inductive Stepped (r : ℝ) : Segment Exact → List (Segment Exact) → Prop
  | other (c : Command Exact) : Stepped r (.other c) [.other c]
  | short {m : Move Exact} (fits : m.length ≤ .real r) : Stepped r (.move m) [.move m]
  | long {m : Move Exact} {parts : List (Move Exact)} (longer : .real r < m.length) (stepped : m.Stepped r parts) :
      Stepped r (.move m) (parts.map .move)

def firstStart? {α : Type} (path : List (Segment α)) : Option (Point α) := (moves path).head?.map (·.start)

/-- What a path in steps should be. -/
structure Resampled (r : ℝ) (path fine : List (Segment Exact)) : Prop where
  pieces : ∃ pieces, fine = pieces.flatten ∧ List.Forall₂ (Stepped r) path pieces
  short : ∀ s ∈ fine, s.length ≤ .real r
  pathLength : pathLength fine = pathLength path
  filament : Fed path → Fed fine ∧ total fine = total path
  start : firstStart? fine = firstStart? path
  stop : lastStop? fine = lastStop? path
  others : others fine = others path
  /-- Nothing is left to be divided. -/
  again : resample (.real r) fine = fine

variable {r : ℝ} {s : Segment Exact} {path pieces : List (Segment Exact)}

private theorem stepped_steps (positive : 0 < r) (placed : ∀ m, s = .move m → m.Placed) : Stepped r s (s.steps (.real r)) := by
  cases s with
  | other c => exact .other c
  | move m =>
    have here := placed m rfl
    rcases le_or_gt m.reach r with short | longer
    · rw [steps, here.steps_of_le short]
      exact .short (by rwa [here.length, Exact.real_le])
    · exact .long (by rwa [here.length, Exact.real_lt]) (here.stepped positive longer)

/-- No step is longer than the resolution. -/
private theorem Stepped.length_le (positive : 0 < r) (stepped : Stepped r s pieces) :
    ∀ part ∈ pieces, part.length ≤ .real r := by
  cases stepped with
  | other c =>
    refine List.forall_mem_singleton.mpr ?_
    rw [length, Exact.zero_eq, Exact.real_le]
    exact positive.le
  | short fits => exact List.forall_mem_singleton.mpr fits
  | long _ stepped =>
    refine List.forall_mem_map.mpr fun part mem => ?_
    rw [length, stepped.length part mem, Exact.real_le]
    exact stepped.least.1.2

/-- The steps of a segment begin where the segment does. -/
private theorem Stepped.firstStart?_append (stepped : Stepped r s pieces) (rest rest' : List (Segment Exact))
    (same : firstStart? rest = firstStart? rest') : firstStart? (pieces ++ rest) = firstStart? (s :: rest') := by
  cases stepped with
  | other c => exact same
  | short => rfl
  | @long m parts _ stepped =>
    have some := stepped.least.1.1
    cases parts with
    | nil => exact absurd some (lt_irrefl 0)
    | cons part parts =>
      cases stepped.chained with
      | cons begins => exact congrArg Option.some begins

private theorem firstStart?_resample (placed : Placed path) (positive : 0 < r) :
    firstStart? (resample (.real r) path) = firstStart? path := by
  induction path with
  | nil => rfl
  | cons s path ih =>
    rw [resample, List.flatMap_cons]
    refine (stepped_steps positive fun m here => placed m (here ▸ List.mem_cons_self ..)).firstStart?_append _ _ ?_
    exact ih placed.of_cons

/-- A path without a move that is longer than the resolution stays as it is. -/
private theorem resample_of_short (placed : Placed path) (short : ∀ s ∈ path, s.length ≤ .real r) :
    resample (.real r) path = path := by
  induction path with
  | nil => rfl
  | cons s path ih =>
    obtain ⟨here, others⟩ := List.forall_mem_cons.mp short
    have rest := ih placed.of_cons others
    rw [resample] at rest ⊢
    rw [List.flatMap_cons, rest]
    cases s with
    | other c => rfl
    | move m =>
      rw [length, placed.head.length, Exact.real_le] at here
      rw [steps, placed.head.steps_of_le here]
      rfl

/-- To take a path in steps divides its longer moves, and changes nothing that the path leads to. -/
theorem resampled_of_resample (placed : Placed path) (positive : 0 < r) :
    Resampled r path (resample (.real r) path) := by
  have refines := refines_resample placed positive
  have stepped : ∀ s ∈ path, Stepped r s (s.steps (.real r)) := fun s mem =>
    stepped_steps positive fun m here => placed m (here ▸ mem)
  have short : ∀ s ∈ resample (.real r) path, s.length ≤ .real r := by
    intro part mem
    obtain ⟨s, among, listed⟩ := List.mem_flatMap.mp mem
    exact (stepped s among).length_le positive part listed
  refine ⟨⟨path.map (steps (.real r)), rfl, ?_⟩, short, ?_, fun fed => ⟨refines.fed fed, refines.total_eq fed⟩,
    firstStart?_resample placed positive, refines.lastStop?_eq, others_resample _, resample_of_short refines.placed short⟩
  · exact List.forall₂_map_right_iff.mpr (List.forall₂_same.mpr stepped)
  · rw [refines.placed.pathLength, placed.pathLength, refines.span_eq]

/-- Of the loop that goes out in two moves and back in one, only the way back is longer than two and is divided. -/
theorem resampled_of_mixed :
    Placed Lane.mixedPath ∧ (0 : ℝ) < 2 ∧ Resampled 2 Lane.mixedPath (resample (.real 2) Lane.mixedPath) ∧
      ∃ parts, (Lane.move 3 0 3).Stepped 2 parts ∧ resample (.real 2) Lane.mixedPath =
        [.move (Lane.move 0 1 1), .other (Lane.switch .absolute), .move (Lane.move 1 3 (3 - 1)),
          .other (Lane.switch .relative)] ++ parts.map .move := by
  have placed : Placed Lane.mixedPath := Lane.traced_mixed.placed Lane.physicalKnown_spot
  have resampled := resampled_of_resample placed two_pos
  refine ⟨placed, two_pos, resampled, ?_⟩
  have kept {a b d : ℝ} {parts : List (Segment Exact)} (near : |a - b| ≤ 2)
      (stepped : Stepped 2 (.move (Lane.move a b d)) parts) : parts = [.move (Lane.move a b d)] := by
    cases stepped with
    | short => rfl
    | long longer =>
      rw [Lane.length_move, Exact.real_lt] at longer
      exact absurd near (not_le.mpr longer)
  obtain ⟨pieces, flat, stepped⟩ := resampled.pieces
  obtain _ | ⟨out, _ | ⟨⟨_⟩, _ | ⟨further, _ | ⟨⟨_⟩, _ | ⟨back, ⟨⟩⟩⟩⟩⟩⟩ := stepped
  obtain rfl := kept (by norm_num) out
  obtain rfl := kept (by norm_num) further
  cases back with
  | short fits =>
    rw [Lane.length_move, Exact.real_le] at fits
    norm_num at fits
  | long _ parts => exact ⟨_, parts, by rw [flat]; simp⟩

end Segment

end Seam
