import Seam.Loop.Cut
import Seam.Proofs.Section

/-!
The ramp over a section. Its steps are the segments of the section, in order
(`Ramp.segment_place`); a move has a place on the ramp exactly if it does not
stand still (`Ramp.proper_steps`). The heights of the ramp are what it climbs on
the way along the moves that do not (`Ramp.heights_place`): never below zero or
above one, never falling, and at one where the overlap is behind (`Ramp.climbs`).
-/
namespace Seam

/-- The segment that has its place on the ramp. -/
def Step.segment {α : Type} : Step α → Segment α
  | .other c => .other c
  | .still m => .move m
  | .ramped m _ => .move m

/-- The move of a step that has a place on the ramp, with the height of the ramp at its end. -/
def Step.ramped? {α : Type} : Step α → Option (Move α × α)
  | .ramped m t => some (m, t)
  | _ => none

def Step.height? {α : Type} (step : Step α) : Option α := step.ramped?.map Prod.snd

/-- A move has a height on the ramp, from zero to one, exactly if it does not stand still. -/
def Step.Proper : Step Exact → Prop
  | .other _ => True
  | .still m => ¬ m.IsLong
  | .ramped m t => m.IsLong ∧ ∃ h : ℝ, 0 ≤ h ∧ h ≤ 1 ∧ t = .real h

namespace Segment

/-- The moves of a path that do not stand still. -/
def longMoves {α : Type} [Scalar α] (segments : List (Segment α)) : List (Move α) :=
  (moves segments).filter fun m => leastLength < m.length

/-- The segment is a move that counts as standing still. -/
def isStill {α : Type} [Scalar α] : Segment α → Bool
  | .move m => decide (m.length ≤ leastLength)
  | .other _ => false

/-- No move of the path is so short that it only counts as standing still: each has no length at all, or is long. -/
def Sharp (segments : List (Segment Exact)) : Prop := ∀ m ∈ moves segments, m.reach = 0 ∨ m.IsLong

variable {m : Move Exact} {segments : List (Segment Exact)}

theorem longMoves_of_long (placed : m.Placed) (long : m.IsLong) :
    longMoves (.move m :: segments) = m :: longMoves segments :=
  List.filter_cons_of_pos (decide_eq_true (placed.leastLength_lt_iff.mpr long))

theorem longMoves_of_not_long (placed : m.Placed) (short : ¬ m.IsLong) :
    longMoves (.move m :: segments) = longMoves segments :=
  List.filter_cons_of_neg fun long => short (placed.leastLength_lt_iff.mp (of_decide_eq_true long))

theorem placed_of_mem_moves (placed : Placed segments) (mem : m ∈ moves segments) : m.Placed := by
  obtain ⟨s, mem, shown⟩ := List.mem_filterMap.mp mem
  cases s with
  | other => cases shown
  | move => cases shown; exact placed m mem

private theorem isLong_of_mem (placed : Placed segments) (mem : m ∈ longMoves segments) : m.IsLong := by
  obtain ⟨mem, long⟩ := List.mem_filter.mp mem
  exact (placed_of_mem_moves placed mem).leastLength_lt_iff.mp (of_decide_eq_true long)

/-- The moves that do not stand still make up the whole way if the others have no length at all. -/
theorem Sharp.span_eq (placed : Placed segments) (sharp : Sharp segments) :
    span segments = ((longMoves segments).map Move.reach).sum := by
  induction segments with
  | nil => rfl
  | cons s segments ih =>
    cases s with
    | other c => rw [span_cons, reach_other, zero_add]; exact ih placed.of_cons sharp
    | move m =>
      obtain ⟨here, others⟩ := List.forall_mem_cons.mp sharp
      rw [span_cons, reach_move, ih placed.of_cons others]
      rcases here with none | long
      · rw [longMoves_of_not_long placed.head fun long => long.reach_ne_zero none, none, zero_add]
      · rw [longMoves_of_long placed.head long, List.map_cons, List.sum_cons]

end Segment

namespace Move

/-- How much way is behind at the end of each move, if so much is behind before them. -/
noncomputable def ways : ℝ → List (Move Exact) → List ℝ
  | _, [] => []
  | way, m :: ms => (way + m.reach) :: ways (way + m.reach) ms

variable {ms : List (Move Exact)}

private theorem le_of_mem_ways (long : ∀ m ∈ ms, m.IsLong) {way w : ℝ} (mem : w ∈ ways way ms) : way ≤ w := by
  induction ms generalizing way with
  | nil => cases mem
  | cons m ms ih =>
    obtain ⟨here, others⟩ := List.forall_mem_cons.mp long
    have further : way ≤ way + m.reach := le_add_of_nonneg_right here.reach_pos.le
    rcases List.mem_cons.mp mem with rfl | later
    · exact further
    · exact further.trans (ih others later)

private theorem pairwise_ways (long : ∀ m ∈ ms, m.IsLong) (way : ℝ) : (ways way ms).Pairwise (· ≤ ·) := by
  induction ms generalizing way with
  | nil => exact .nil
  | cons m ms ih =>
    obtain ⟨_, others⟩ := List.forall_mem_cons.mp long
    exact .cons (fun w mem => le_of_mem_ways others mem) (ih others _)

private theorem getLast?_ways {way w : ℝ} (last : (ways way ms).getLast? = some w) : w = way + (ms.map reach).sum := by
  induction ms generalizing way with
  | nil => cases last
  | cons m ms ih =>
    rw [List.map_cons, List.sum_cons, ← add_assoc]
    cases ms with
    | nil => simpa [ways, eq_comm] using last
    | cons m' ms => exact ih last

end Move

namespace Ramp

theorem segment_place {α : Type} [Scalar α] (r : Ramp α) (travelled : α) (segments : List (Segment α)) :
    (r.place travelled segments).map Step.segment = segments := by
  induction segments generalizing travelled with
  | nil => rfl
  | cons s segments ih =>
    cases s with
    | other c => rw [place, List.map_cons, ih]; rfl
    | move m =>
      rw [place]
      split <;> rw [List.map_cons, ih] <;> rfl

def exact (first span : ℝ) : Ramp Exact := ⟨.real first, .real span⟩

/-- The height of the ramp is one if it has no room, and otherwise grows with the way. -/
noncomputable def climb (first span way : ℝ) : ℝ :=
  if span ≤ 1e-9 then 1 else max 0 (min ((way - first) / span) 1)

variable {first span : ℝ} {segments : List (Segment Exact)}

private theorem height_eq (way : ℝ) : (exact first span).height (.real way) = .real (climb first span way) := by
  simp only [height, exact, climb, Segment.leastLength, Exact.ofPlaces_billionth, Exact.real_le]
  split
  case isTrue => exact Exact.one_eq
  case isFalse room =>
    have nonzero : span ≠ 0 := fun zero => room (by rw [zero]; norm_num)
    rw [Exact.real_sub, Exact.real_div nonzero, Exact.clamp_real]

private theorem climb_eq_one (flat : span ≤ 1e-9) (way : ℝ) : climb first span way = 1 := if_pos flat

private theorem climb_nonneg (way : ℝ) : 0 ≤ climb first span way := by
  unfold climb
  split
  · exact zero_le_one
  · exact le_max_left ..

private theorem climb_le_one (way : ℝ) : climb first span way ≤ 1 := by
  unfold climb
  split
  · exact le_rfl
  · exact max_le zero_le_one (min_le_right ..)

private theorem climb_mono : Monotone (climb first span) := by
  intro way further le
  unfold climb
  split
  case isTrue => exact le_rfl
  case isFalse room =>
    have positive : 0 < span := lt_trans (by norm_num) (not_le.mp room)
    gcongr

private theorem climb_first (room : 1e-9 < span) : climb first span first = 0 := by
  rw [climb, if_neg (not_le.mpr room), sub_self, zero_div, min_eq_left zero_le_one, max_self]

/-- The ramp is at one where the way has reached its end. -/
private theorem climb_of_le {overlap way : ℝ} (reached : overlap ≤ way) : climb first (overlap - first) way = 1 := by
  unfold climb
  split
  case isTrue => rfl
  case isFalse room =>
    have positive : 0 < overlap - first := lt_trans (by norm_num) (not_le.mp room)
    have whole : 1 ≤ (way - first) / (overlap - first) := by
      rw [le_div_iff₀ positive]
      linarith
    rw [min_eq_right whole, max_eq_right zero_le_one]

private theorem proper_place (placed : Segment.Placed segments) (way : ℝ) :
    ∀ step ∈ (exact first span).place (.real way) segments, step.Proper := by
  induction segments generalizing way with
  | nil => intro step mem; cases mem
  | cons s segments ih =>
    cases s with
    | other c =>
      rw [place]
      exact List.forall_mem_cons.mpr ⟨trivial, ih placed.of_cons way⟩
    | move m =>
      have here := placed.head
      rw [place]
      split
      case isTrue short =>
        exact List.forall_mem_cons.mpr ⟨here.le_leastLength_iff.mp short, ih placed.of_cons way⟩
      case isFalse long =>
        rw [here.length, Exact.real_add, height_eq]
        have rising : m.IsLong := not_not.mp fun short => long (here.le_leastLength_iff.mpr short)
        exact List.forall_mem_cons.mpr
          ⟨⟨rising, _, climb_nonneg _, climb_le_one _, rfl⟩, ih placed.of_cons (way + m.reach)⟩

/-- The heights are what the ramp climbs on the way along the moves that do not stand still. -/
theorem heights_place (placed : Segment.Placed segments) (way : ℝ) :
    ((exact first span).place (.real way) segments).filterMap Step.height? =
      ((Move.ways way (Segment.longMoves segments)).map (climb first span)).map .real := by
  induction segments generalizing way with
  | nil => rfl
  | cons s segments ih =>
    cases s with
    | other c =>
      rw [place, List.filterMap_cons_none rfl]
      exact ih placed.of_cons way
    | move m =>
      have here := placed.head
      rw [place]
      split
      case isTrue short =>
        rw [List.filterMap_cons_none rfl, Segment.longMoves_of_not_long here (here.le_leastLength_iff.mp short)]
        exact ih placed.of_cons way
      case isFalse long =>
        have rising : m.IsLong := not_not.mp fun short => long (here.le_leastLength_iff.mpr short)
        have shown (t : Exact) : (Step.ramped m t).height? = some t := rfl
        rw [here.length, Exact.real_add, height_eq, List.filterMap_cons_some (shown _), ih placed.of_cons,
          Segment.longMoves_of_long here rising]
        rfl

/-- The way at which the ramp over the section begins to rise. -/
noncomputable def onset (segments : List (Segment Exact)) : ℝ :=
  ((Segment.longMoves segments).head?.map Move.reach).getD 0

private theorem find?_length (placed : Segment.Placed segments) :
    (segments.map Segment.length).find? (fun d => Segment.leastLength < d) =
      ((Segment.longMoves segments).head?.map Move.reach).map .real := by
  induction segments with
  | nil => rfl
  | cons s segments ih =>
    have rest := ih placed.of_cons
    rw [List.map_cons]
    cases s with
    | other c =>
      have none : ¬ Segment.leastLength < (Segment.other c).length := by
        rw [Segment.length, Exact.zero_eq, Segment.leastLength, Exact.ofPlaces_billionth, Exact.real_lt]
        norm_num
      rw [List.find?_cons_of_neg (by simpa using none), rest]
      rfl
    | move m =>
      have here := placed.head
      by_cases long : m.IsLong
      · have found : Segment.leastLength < (Segment.move m).length := here.leastLength_lt_iff.mpr long
        rw [List.find?_cons_of_pos (by simpa using found), Segment.longMoves_of_long here long, Segment.length, here.length]
        rfl
      · have passed : ¬ Segment.leastLength < (Segment.move m).length := fun found => long (here.leastLength_lt_iff.mp found)
        rw [List.find?_cons_of_neg (by simpa using passed), rest, Segment.longMoves_of_not_long here long]

private theorem ofSection_eq (overlap : ℝ) (placed : Segment.Placed segments) :
    ofSection (.real overlap) segments = exact (onset segments) (overlap - onset segments) := by
  have first : (((Segment.longMoves segments).head?.map Move.reach).map Exact.real).getD 0 = .real (onset segments) := by
    rw [onset]
    cases (Segment.longMoves segments).head? <;> simp
  rw [ofSection, find?_length placed, first, exact, Exact.real_sub]

theorem proper_steps (overlap : ℝ) (placed : Segment.Placed segments) :
    ∀ step ∈ steps (.real overlap) segments, step.Proper := by
  rw [steps, ofSection_eq overlap placed, Exact.zero_eq]
  exact proper_place placed 0

/-- The heights of the ramp over a section that covers the overlap. -/
noncomputable def heights (overlap : ℝ) (segments : List (Segment Exact)) : List ℝ :=
  (Move.ways 0 (Segment.longMoves segments)).map (climb (onset segments) (overlap - onset segments))

theorem heights_steps (overlap : ℝ) (placed : Segment.Placed segments) :
    (steps (.real overlap) segments).filterMap Step.height? = (heights overlap segments).map .real := by
  rw [steps, ofSection_eq overlap placed, Exact.zero_eq, heights_place placed, heights]

/-- How the heights of the ramp over a section go. -/
structure Climbs (overlap : ℝ) (segments : List (Segment Exact)) (heights : List ℝ) : Prop where
  bounds : ∀ h ∈ heights, 0 ≤ h ∧ h ≤ 1
  ascends : heights.Pairwise (· ≤ ·)
  /-- With room behind the first move that does not stand still, the ramp begins there. -/
  first : ∀ m, (Segment.longMoves segments).head? = some m → 1e-9 < overlap - m.reach → heights.head? = some 0
  /-- Without, it is at its end throughout. -/
  flat : ∀ m, (Segment.longMoves segments).head? = some m → overlap - m.reach ≤ 1e-9 → ∀ h ∈ heights, h = 1
  last : Segment.Sharp segments → ∀ h, heights.getLast? = some h → h = 1

theorem climbs {overlap : ℝ} (placed : Segment.Placed segments) (reached : overlap ≤ Segment.span segments) :
    Climbs overlap segments (heights overlap segments) := by
  have long : ∀ m ∈ Segment.longMoves segments, m.IsLong := fun m mem => Segment.isLong_of_mem placed mem
  have begins {m : Move Exact} (first : (Segment.longMoves segments).head? = some m) : onset segments = m.reach := by
    rw [onset, first]
    rfl
  constructor
  case bounds =>
    intro h mem
    obtain ⟨way, _, rfl⟩ := List.mem_map.mp mem
    exact ⟨climb_nonneg way, climb_le_one way⟩
  case ascends =>
    exact List.pairwise_map.mpr ((Move.pairwise_ways long 0).imp fun le => climb_mono le)
  case first =>
    intro m first room
    obtain ⟨ms, moves⟩ := List.head?_eq_some_iff.mp first
    rw [heights, begins first, moves, Move.ways, List.map_cons, List.head?_cons, zero_add, climb_first room]
  case flat =>
    intro m first room h mem
    obtain ⟨way, _, rfl⟩ := List.mem_map.mp mem
    exact climb_eq_one (by rw [begins first]; exact room) way
  case last =>
    intro sharp h last
    rw [heights, List.getLast?_map] at last
    obtain ⟨way, final, rfl⟩ := Option.map_eq_some_iff.mp last
    refine climb_of_le ?_
    rw [Move.getLast?_ways final, zero_add, ← sharp.span_eq placed]
    exact reached

end Ramp

end Seam
