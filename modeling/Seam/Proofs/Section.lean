import Seam.Proofs.Outline

/-!
What matters of a machine on its way along a path is its pose: where the head is
in the plane, the feed rate, and how extrusion is meant. As long as no line
changes what coordinates mean, the pose follows the segments (`Traced.pose`). The
moves of a loop go from one known point to another (`Traced.placed`), so their
lengths are reals, and the loop is cut inside one of them or not at all
(`Cut.resume_cases`).
-/
namespace Seam

/-- Where the head is in the plane, the feed rate, and how extrusion is meant. -/
structure Pose (α : Type) where
  x : α
  y : α
  feedRate : Option α
  extrusionMode : Mode

namespace Pose

variable {α : Type}

def after (p : Pose α) : Segment α → Pose α
  | .move m => { p with x := m.stop.x, y := m.stop.y, feedRate := m.feedRate.or p.feedRate }
  | .other c => { p with extrusionMode := (c.mode? .filament).getD p.extrusionMode }

/-- The mode of extrusion that the last line of a path sets that sets one. -/
def mode? : List (Segment α) → Option Mode
  | [] => none
  | .move _ :: rest => mode? rest
  | .other c :: rest => (mode? rest).or (c.mode? .filament)

def along (p : Pose α) (segments : List (Segment α)) : Pose α := segments.foldl after p

theorem along_append (p : Pose α) (front back : List (Segment α)) :
    p.along (front ++ back) = (p.along front).along back := List.foldl_append

/-- Moves one after the other at one feed rate lead where the last one does. -/
theorem along_moves (p : Pose α) {feedRate : Option α} {ms : List (Move α)} {last : Move α}
    (same : ∀ m ∈ ms, m.feedRate = feedRate) (sameLast : last.feedRate = feedRate) :
    p.along ((ms ++ [last]).map .move) = p.after (.move last) := by
  induction ms generalizing p with
  | nil => rfl
  | cons m ms ih =>
    have rest := ih (p.after (.move m)) fun m' mem => same m' (List.mem_cons_of_mem m mem)
    refine Eq.trans rest ?_
    simp only [after, same m (List.mem_cons_self ..), sameLast, ← Option.or_assoc, Option.or_self]

/-- Only the lines of a path that set a mode change how extrusion is meant. -/
theorem extrusionMode_along (p : Pose α) (segments : List (Segment α)) :
    (p.along segments).extrusionMode = (mode? segments).getD p.extrusionMode := by
  induction segments generalizing p with
  | nil => rfl
  | cons s segments ih =>
    refine (ih _).trans ?_
    cases s with
    | move m => rfl
    | other c => rw [mode?, Option.getD_or]; rfl

theorem mode?_eq_none {segments : List (Segment α)} (steady : ∀ c, .other c ∈ segments → c.mode? .filament = none) :
    mode? segments = none := by
  induction segments with
  | nil => rfl
  | cons s segments ih =>
    have rest := ih fun c mem => steady c (List.mem_cons_of_mem s mem)
    cases s with
    | move m => exact rest
    | other c => rw [mode?, rest, steady c (List.mem_cons_self ..)]; rfl

theorem mode?_moves (ms : List (Move α)) : mode? (ms.map .move) = none := by
  refine mode?_eq_none fun c mem => ?_
  obtain ⟨_, _, same⟩ := List.mem_map.mp mem
  cases same

end Pose

def Machine.pose {α : Type} [Scalar α] (m : Machine α) : Pose α :=
  ⟨m.physical.x, m.physical.y, m.feedRate, m.extrusionMode⟩

theorem Segment.Plain.of_cons {α : Type} {s : Segment α} {segments : List (Segment α)}
    (plain : Segment.Plain (s :: segments)) : Segment.Plain segments :=
  fun c mem => plain c (List.mem_cons_of_mem s mem)

/-- Along a path of which no line changes what coordinates mean, the pose follows
    the segments, and neither the offsets nor the meaning of coordinates change. -/
theorem Traced.pose {α : Type} [Scalar α] {height : α} {m last : Machine α} {cs : List (Command α)}
    {segments : List (Segment α)} (traced : Traced height m cs segments last) (plain : Segment.Plain segments) :
    last.pose = m.pose.along segments ∧ last.positioning = m.positioning ∧ last.offset = m.offset ∧
      last.extrusionOffset = m.extrusionOffset := by
  induction traced with
  | nil => exact ⟨rfl, rfl, rfl, rfl⟩
  | @cons m next last c cs s segments stepped drawn rest ih =>
    obtain ⟨pose, positioning, offset, extrusionOffset⟩ := ih plain.of_cons
    rw [pose, positioning, offset, extrusionOffset]
    obtain ⟨_, _, ⟨linear, _, rfl⟩ | ⟨_, _, rfl⟩⟩ := Segment.ofStep?_eq_some_iff.mp drawn
    · obtain ⟨positioning, extrusionMode, offset, extrusionOffset⟩ := Machine.after_of_isLinear linear stepped
      refine ⟨?_, positioning, offset, extrusionOffset⟩
      have fed : next.feedRate.or m.feedRate = next.feedRate := by
        rw [Machine.after_feedRate stepped, Option.or_assoc, Option.or_self]
      have here : next.pose = m.pose.after
          (.move ⟨m.physical, next.physical, next.extrusion - m.extrusion, next.feedRate⟩) := by
        simp only [Machine.pose, Pose.after, fed, extrusionMode]
      rw [here]; rfl
    · rw [Machine.after_of_isIdle m (plain c (List.mem_cons_self ..)), Except.ok.injEq] at stepped
      subst stepped
      exact ⟨rfl, rfl, rfl, rfl⟩

/-- The lines of a path that are no moves neither move the head nor home it. -/
theorem Traced.still {α : Type} [Scalar α] {height : α} {m last : Machine α} {cs : List (Command α)}
    {segments : List (Segment α)} (traced : Traced height m cs segments last) {c : Command α}
    (mem : .other c ∈ segments) : c.isMotion = false ∧ c.code? ≠ some .home := by
  induction traced with
  | nil => cases mem
  | cons stepped drawn rest ih =>
    rcases List.mem_cons.mp mem with rfl | later
    · obtain ⟨_, _, ⟨_, _, same⟩ | ⟨motionless, away, same⟩⟩ := Segment.ofStep?_eq_some_iff.mp drawn
      · cases same
      · cases same; exact ⟨motionless, away⟩
    · exact ih later

theorem Traced.mem_of_other {α : Type} [Scalar α] {height : α} {m last : Machine α} {cs : List (Command α)}
    {segments : List (Segment α)} (traced : Traced height m cs segments last) {c : Command α}
    (mem : .other c ∈ segments) : c ∈ cs := by
  induction traced with
  | nil => cases mem
  | cons stepped drawn rest ih =>
    rcases List.mem_cons.mp mem with rfl | later
    · obtain ⟨_, _, ⟨_, _, same⟩ | ⟨_, _, same⟩⟩ := Segment.ofStep?_eq_some_iff.mp drawn
      · cases same
      · cases same; exact List.mem_cons_self ..
    · exact List.mem_cons_of_mem _ (ih later)

theorem Traced.positioning {α : Type} [Scalar α] {height : α} {m last : Machine α} {cs : List (Command α)}
    {segments : List (Segment α)} (traced : Traced height m cs segments last) (plain : Segment.Plain segments)
    (some : segments ≠ []) : m.positioning = .absolute := by
  cases traced with
  | nil => exact absurd rfl some
  | cons stepped drawn rest =>
    obtain ⟨absolute, _, ⟨linear, _, _⟩ | ⟨_, _, rfl⟩⟩ := Segment.ofStep?_eq_some_iff.mp drawn
    · exact (Machine.after_of_isLinear linear stepped).1.symm.trans absolute
    · rw [Machine.after_of_isIdle m (plain _ (List.mem_cons_self ..)), Except.ok.injEq] at stepped
      subst stepped
      exact absolute

theorem Traced.positioning_last {α : Type} [Scalar α] {height : α} {m last : Machine α} {cs : List (Command α)}
    {segments : List (Segment α)} (traced : Traced height m cs segments last) (some : segments ≠ []) :
    last.positioning = .absolute := by
  induction traced with
  | nil => exact absurd rfl some
  | cons _ drawn rest ih =>
    cases rest with
    | nil => exact (Segment.ofStep?_eq_some_iff.mp drawn).1
    | cons => exact ih (List.cons_ne_nil _ _)

namespace Segment

/-- The ends of all moves of the path are known. -/
def Placed (segments : List (Segment Exact)) : Prop := ∀ m, .move m ∈ segments → m.Placed

noncomputable def reach (s : Segment Exact) : ℝ := s.length.toReal

noncomputable def span (segments : List (Segment Exact)) : ℝ := (segments.map reach).sum

variable {s : Segment Exact} {segments front back : List (Segment Exact)}

theorem Placed.of_cons (placed : Placed (s :: segments)) : Placed segments :=
  fun m mem => placed m (List.mem_cons_of_mem s mem)

theorem Placed.head {m : Move Exact} (placed : Placed (.move m :: segments)) : m.Placed :=
  placed m (List.mem_cons_self ..)

theorem Placed.append (front_placed : Placed front) (back_placed : Placed back) : Placed (front ++ back) :=
  fun m mem => (List.mem_append.mp mem).elim (front_placed m) (back_placed m)

theorem Placed.of_append (placed : Placed (front ++ back)) : Placed front ∧ Placed back :=
  ⟨fun m mem => placed m (List.mem_append_left _ mem), fun m mem => placed m (List.mem_append_right _ mem)⟩

@[simp] theorem reach_move (m : Move Exact) : (Segment.move m).reach = m.reach := rfl

@[simp] theorem reach_other (c : Command Exact) : (Segment.other c).reach = 0 := by simp [reach, length]

@[simp] theorem span_nil : span [] = 0 := rfl

@[simp] theorem span_cons : span (s :: segments) = s.reach + span segments := rfl

theorem span_append : span (front ++ back) = span front + span back := by
  simp [span]

private theorem length_eq_reach (placed : ∀ m, s = .move m → m.Placed) : s.length = .real s.reach := by
  cases s with
  | move m => exact (placed m rfl).length
  | other c => rw [reach_other]; simp [length]

theorem Placed.span_nonneg (placed : Placed segments) : 0 ≤ span segments := by
  induction segments with
  | nil => exact le_refl _
  | cons s segments ih =>
    refine add_nonneg ?_ (ih placed.of_cons)
    cases s with
    | move m => exact placed.head.reach_nonneg
    | other c => rw [reach_other]

theorem Placed.pathLength (placed : Placed segments) : pathLength segments = .real (span segments) := by
  have lengths : segments.map length = (segments.map reach).map Exact.real := by
    rw [List.map_map]
    refine List.map_congr_left fun s mem => length_eq_reach fun m same => placed m (same ▸ mem)
  rw [Segment.pathLength, lengths, Exact.sum_real, span]

end Segment

/-- The moves of a loop go from one known point to another. -/
theorem Traced.placed {height : Exact} {m last : Machine Exact} {cs : List (Command Exact)}
    {segments : List (Segment Exact)} (traced : Traced height m cs segments last) (known : m.physicalKnown = true) :
    Segment.Placed segments := by
  induction traced with
  | nil => intro move mem; cases mem
  | @cons m next last c cs s segments stepped drawn rest ih =>
    obtain ⟨_, reached, drawn⟩ := Segment.ofStep?_eq_some_iff.mp drawn
    intro move mem
    rcases List.mem_cons.mp mem with here | later
    · obtain ⟨_, _, same⟩ | ⟨_, _, same⟩ := drawn
      · rw [same, Segment.move.injEq] at here
        rw [Machine.physicalKnown, Bool.and_eq_true] at known reached
        obtain ⟨p, start⟩ := (Point.isKnown_iff _).mp known.2
        obtain ⟨q, stop⟩ := (Point.isKnown_iff _).mp reached.2
        exact ⟨p, q, by rw [here]; exact start, by rw [here]; exact stop⟩
      · rw [same] at here; cases here
    · exact ih reached move later

namespace Cut

/-- The path that a cut covers: its taper section and what is left of the move in which it ends. -/
def covered {α : Type} (cut : Cut α) : List (Segment α) := cut.taper ++ cut.tail.toList.map .move

/-- On a way of which some is behind, no move reaches the length, except for
    those that stand still. -/
def Within (length : ℝ) : ℝ → List (Segment Exact) → Prop
  | _, [] => True
  | way, .other _ :: rest => Within length way rest
  | way, .move m :: rest => ¬ (m.IsLong ∧ length ≤ way + m.reach) ∧ Within length (way + m.reach) rest

/-- A path is cut in the first move that reaches the length, at a fraction of
    it, or covered as a whole. -/
theorem resume_cases (length way : ℝ) {segments : List (Segment Exact)} (placed : Segment.Placed segments) :
    (Cut.resume (.real length) (.real way) segments = ⟨segments, none, segments.length⟩ ∧
        Within length way segments) ∨
      ∃ front m back, segments = front ++ .move m :: back ∧ Within length way front ∧ m.IsLong ∧
        length ≤ way + Segment.span front + m.reach ∧
        Cut.resume (.real length) (.real way) segments =
          let f := max 0 (min ((length - (way + Segment.span front)) / m.reach) 1)
          ⟨front ++ [.move (m.upTo (.real f))], if f < 1 then some (m.onFrom (.real f)) else none,
            front.length + 1⟩ := by
  induction segments generalizing way with
  | nil => exact .inl ⟨rfl, trivial⟩
  | cons s rest ih =>
    cases s with
    | other c =>
      rw [Cut.resume]
      rcases ih way placed.of_cons with ⟨whole, within⟩ | ⟨front, m, back, split, within, long, reached, cut⟩
      · exact .inl ⟨by rw [whole]; rfl, within⟩
      · refine .inr ⟨.other c :: front, m, back, by rw [split]; rfl, within, long, ?_, ?_⟩
        · simpa using reached
        · rw [cut]
          simp [Cut.after]
    | move m =>
      have here := placed.head
      by_cases reached : m.IsLong ∧ length ≤ way + m.reach
      · have decided : Segment.leastLength < m.length ∧ Exact.real length ≤ .real way + m.length := by
          rw [here.leastLength_lt_iff, here.length, Exact.real_add, Exact.real_le]
          exact reached
        refine .inr ⟨[], m, rest, rfl, trivial, reached.1, by simpa using reached.2, ?_⟩
        rw [Cut.resume, if_pos decided, here.length, Exact.real_sub, Exact.real_div reached.1.reach_ne_zero,
          Exact.clamp_real]
        simp [Cut.inside]
      · have decided : ¬ (Segment.leastLength < m.length ∧ Exact.real length ≤ .real way + m.length) := by
          rw [here.leastLength_lt_iff, here.length, Exact.real_add, Exact.real_le]
          exact reached
        rw [Cut.resume, if_neg decided, here.length, Exact.real_add]
        rcases ih (way + m.reach) placed.of_cons with
          ⟨whole, within⟩ | ⟨front, m', back, split, within, long, reached', cut⟩
        · exact .inl ⟨by rw [whole]; rfl, reached, within⟩
        · refine .inr ⟨.move m :: front, m', back, by rw [split]; rfl, ⟨reached, within⟩, long, ?_, ?_⟩
          · simpa [add_assoc] using reached'
          · rw [cut]
            simp [Cut.after, add_assoc]

end Cut

end Seam
