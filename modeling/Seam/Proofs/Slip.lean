import Seam.Proofs.Course

/-!
Where a tapered loop leaves the head. The ending taper ends where the section
does, so in the plane the head slips from the end of the loop to there
(`Weave.slip`), and the height is the one of the last line that sets it. On every
axis the machine behind the tapered loop is ahead of the one behind the loop as it
was by the slip (`Woven.ahead_last`).
-/
namespace Seam

theorem Drawn.physical_z {stroke? : Step Exact → Option (Stroke Exact)} {m last : Machine Exact}
    {steps : List (Step Exact)} {ts : List (Transition Exact)} (drawn : Drawn stroke? m steps ts last) :
    last.physical.z = (steps.filterMap stroke?).foldl (fun z s => s.height.getD z) m.physical.z := by
  induction drawn with
  | nil => rfl
  | @other m next _ c _ _ repeated idle stepped _ ih =>
    rw [Machine.after_of_isIdle m idle, Except.ok.injEq] at stepped
    subst stepped
    rw [List.filterMap_cons_none repeated]
    exact ih
  | @stroke m next _ c _ s _ _ drawn stepped draws _ ih =>
    have height : next.physical.z = s.height.getD m.physical.z := draws.z
    rw [List.filterMap_cons_some drawn, ih, height, List.foldl_cons]
  | skip omitted _ ih =>
    rw [List.filterMap_cons_none omitted]
    exact ih

namespace Segment

def lastStop? {α : Type} (segments : List (Segment α)) : Option (Point α) := (moves segments).getLast?.map (·.stop)

theorem moves_append {α : Type} (front back : List (Segment α)) : moves (front ++ back) = moves front ++ moves back :=
  List.filterMap_append

theorem moves_map_move {α : Type} (ms : List (Move α)) : moves (ms.map .move) = ms := by
  induction ms with
  | nil => rfl
  | cons m ms ih => exact congrArg (m :: ·) ih

private theorem lastStop?_cons_move {α : Type} (m : Move α) (segments : List (Segment α)) :
    lastStop? (.move m :: segments) = (lastStop? segments).or (some m.stop) := by
  show (m :: moves segments).getLast?.map _ = ((moves segments).getLast?.map _).or _
  cases moves segments with
  | nil => rfl
  | cons m' ms => rw [List.getLast?_cons_cons, List.getLast?_cons]; rfl

private theorem lastStop?_append {α : Type} (front back : List (Segment α)) :
    lastStop? (front ++ back) = (lastStop? back).or (lastStop? front) := by
  rw [lastStop?, moves_append, List.getLast?_append, Option.map_or]
  rfl

private theorem lastStop?_moves {α : Type} (ms : List (Move α)) (last : Move α) :
    lastStop? ((ms ++ [last]).map .move) = some last.stop := by
  rw [lastStop?, moves_map_move, List.getLast?_concat]
  rfl

/-- The last move that is divided leads where it led. -/
theorem Refines.lastStop?_eq {path fine : List (Segment Exact)} (refines : Refines path fine) :
    lastStop? fine = lastStop? path := by
  induction refines with
  | nil => rfl
  | other _ ih => exact ih
  | @move m parts _ _ divided _ ih =>
    obtain ⟨front, last, split, stop⟩ := divided.stop
    rw [lastStop?_append, lastStop?_cons_move, ih, split, lastStop?_moves, stop]

end Segment

/-- Along a path the head is where the last move led. -/
theorem Traced.physical_last {α : Type} [Scalar α] {height : α} {m last : Machine α} {cs : List (Command α)}
    {segments : List (Segment α)} (traced : Traced height m cs segments last) (plain : Segment.Plain segments) :
    last.physical = (Segment.lastStop? segments).getD m.physical := by
  induction traced with
  | nil => rfl
  | @cons m next last c cs s segments stepped drawn rest ih =>
    rw [ih plain.of_cons]
    obtain ⟨_, _, ⟨_, _, rfl⟩ | ⟨_, _, rfl⟩⟩ := Segment.ofStep?_eq_some_iff.mp drawn
    · rw [Segment.lastStop?_cons_move, Option.getD_or]
      rfl
    · rw [Machine.after_of_isIdle m (plain _ (List.mem_cons_self ..)), Except.ok.injEq] at stepped
      subst stepped
      rfl

namespace Weave

/-- The strokes of the starting taper and of the tail. -/
noncomputable def strokes (tuning : Tuning Exact) (floor : Exact) (segments : List (Segment Exact)) :
    List (Stroke Exact) :=
  (steps tuning segments).filterMap (Step.rise? tuning.layerHeight floor) ++
    ((cut tuning segments).tail.toList.map Step.still).filterMap (bridge? floor)

/-- How much higher than the loop the last stroke before its rest is. -/
noncomputable def sag (tuning : Tuning Exact) (floor : Exact) (segments : List (Segment Exact)) : ℝ :=
  (strokes tuning floor segments).getLast?.elim 0 fun s => (s.height.getD s.move.stop.z).toReal - s.move.stop.z.toReal

/-- How far the machine behind the tapered loop is ahead on an axis of the one
    behind the loop as it was: in the plane from the end of the loop to the end of the
    last move that does not stand still, and in height by what the rest of the loop
    leaves of the sag. -/
noncomputable def slip (tuning : Tuning Exact) (floor : Exact) (run : Run Exact) (segments : List (Segment Exact)) :
    Axis → Lead
  | .z => (Lead.mk (sag tuning floor segments) 0).through (.axis .z) run.start.positioning
      (remainder tuning segments run)
  | a => ⟨(Segment.longMoves (taperSection tuning segments)).getLast?.elim 0 fun m =>
      (m.stop.get a).toReal - (run.finish.physical.get a).toReal, 0⟩

end Weave

theorem Traced.known_last {α : Type} [Scalar α] {height : α} {m last : Machine α} {cs : List (Command α)}
    {segments : List (Segment α)} (traced : Traced height m cs segments last) (known : m.physicalKnown = true) :
    last.physicalKnown = true := by
  induction traced with
  | nil => exact known
  | cons _ drawn _ ih => exact ih (Segment.ofStep?_eq_some_iff.mp drawn).2.1

theorem Machine.exists_physical {m : Machine Exact} (known : m.physicalKnown = true) :
    ∃ p : Point ℝ, m.physical = p.exact := by
  rw [physicalKnown, Bool.and_eq_true] at known
  exact (Point.isKnown_iff _).mp known.2

theorem Machine.get_physical {α : Type} [Scalar α] (m : Machine α) (a : Axis) :
    m.physical.get a = m.position.get a + m.offset.get a := by
  cases a <;> rfl

/-- One machine is ahead of another where the offsets agree and the physical positions are known. -/
private theorem Machine.gauge_ahead {here there : Machine Exact} {a : Axis} {o u d : ℝ} (offset : here.offset.get a = .real o)
    (same : there.offset.get a = here.offset.get a) (known : here.physical.get a = .real u)
    (apart : there.physical.get a = .real (u + d)) : there.gauge (.axis a) = (here.gauge (.axis a)).ahead ⟨d, 0⟩ := by
  rw [get_physical, offset] at known
  rw [get_physical, same, offset] at apart
  rw [gauge, gauge, same, Exact.eq_of_add_real known, Exact.eq_of_add_real apart, Gauge.ahead, Exact.add_zero,
    Exact.real_add, add_sub_right_comm]

namespace Step

variable {stroke? : Step Exact → Option (Stroke Exact)}

private theorem moves_trace (steps : List (Step Exact)) :
    Segment.moves (steps.filterMap (trace? stroke?)) = (steps.filterMap stroke?).map (·.move) := by
  induction steps with
  | nil => rfl
  | cons step steps ih =>
    cases drawn : stroke? step with
    | some s =>
      rw [List.filterMap_cons_some (trace?_stroke drawn), List.filterMap_cons_some drawn]
      exact congrArg (s.move :: ·) ih
    | none =>
      rw [List.filterMap_cons_none drawn, ← ih]
      cases step with
      | other c => rw [List.filterMap_cons_some (trace?_other drawn)]; rfl
      | still m => rw [List.filterMap_cons_none (trace?_still drawn)]
      | ramped m t => rw [List.filterMap_cons_none (by simp [trace?, drawn])]

end Step

private theorem Pose.spot_along {α : Type} (p : Pose α) (segments : List (Segment α)) :
    (p.along segments).x = (Segment.lastStop? segments).elim p.x (·.x) ∧
      (p.along segments).y = (Segment.lastStop? segments).elim p.y (·.y) := by
  induction segments generalizing p with
  | nil => exact ⟨rfl, rfl⟩
  | cons s segments ih =>
    obtain ⟨x, y⟩ := ih (p.after s)
    cases s with
    | other c => exact ⟨x, y⟩
    | move m =>
      rw [Segment.lastStop?_cons_move]
      refine ⟨Eq.trans x ?_, Eq.trans y ?_⟩ <;> cases Segment.lastStop? segments <;> rfl

namespace Woven

variable {tuning : Tuning Exact} {floor : Exact} {run : Run Exact} {segments : List (Segment Exact)}

theorem agree (w : Woven tuning floor run segments) : Machine.Level run.finish w.joined :=
  (w.level.passage w.continued w.follows (w.rest_lines.trans w.source_lines.symm)).1

theorem finish_known (w : Woven tuning floor run segments) : run.finish.physicalKnown = true := by
  obtain ⟨known, traced⟩ := Segment.traced_of_path w.path
  exact traced.known_last known

private theorem physical_fallen (w : Woven tuning floor run segments) {a : Axis} (plane : a ≠ .z) :
    w.fallen.physical.get a = (Segment.longMoves (Weave.taperSection tuning segments)).getLast?.elim
      (run.finish.physical.get a) (·.stop.get a) := by
  obtain ⟨x, y⟩ := Pose.spot_along w.joined.pose ((Weave.steps tuning segments).filterMap (Step.trace? Step.fall?))
  rw [← w.falls.pose, Segment.lastStop?, Step.moves_trace, w.moves_fall] at x y
  cases a with
  | x =>
    refine Eq.trans x ?_
    rw [show w.joined.pose.x = run.finish.physical.x from w.agree.physical.1]
    cases (Segment.longMoves (Weave.taperSection tuning segments)).getLast? <;> rfl
  | y =>
    refine Eq.trans y ?_
    rw [show w.joined.pose.y = run.finish.physical.y from w.agree.physical.2]
    cases (Segment.longMoves (Weave.taperSection tuning segments)).getLast? <;> rfl
  | z => exact absurd rfl plane

private theorem placed_longMoves (w : Woven tuning floor run segments) {m : Move Exact}
    (last : (Segment.longMoves (Weave.taperSection tuning segments)).getLast? = some m) : m.Placed :=
  Segment.placed_of_mem_moves w.placed (List.mem_filter.mp (List.mem_of_getLast? last)).1

private theorem frame_last (w : Woven tuning floor run segments) :
    w.last.positioning = run.finish.positioning ∧ w.last.position = w.fallen.position ∧ w.last.offset = w.joined.offset := by
  obtain ⟨position, offset, positioning, _⟩ := Weave.declared_frame w.fallen run.finish.extrusion
  exact ⟨positioning.trans (w.falls.framed.positioning.trans w.agree.x.1), position,
    offset.trans w.falls.framed.offset⟩

private theorem ahead_last_plane (w : Woven tuning floor run segments) {a : Axis} (plane : a ≠ .z) :
    Machine.Ahead (.axis a) (Weave.slip tuning floor run segments a) run.finish w.last := by
  obtain ⟨positioning, position, offset⟩ := w.frame_last
  obtain ⟨o, fixed⟩ := Machine.fixed_of_physicalKnown w.finish_known
  obtain ⟨p, known⟩ := Machine.exists_physical w.finish_known
  have same : w.last.offset.get a = run.finish.offset.get a := by
    rw [offset]
    cases a with
    | x => exact congrArg Gauge.offset w.agree.gauge.1
    | y => exact congrArg Gauge.offset w.agree.gauge.2
    | z => exact absurd rfl plane
  have slip : Weave.slip tuning floor run segments a =
      ⟨(Segment.longMoves (Weave.taperSection tuning segments)).getLast?.elim 0 fun m =>
        (m.stop.get a).toReal - (run.finish.physical.get a).toReal, 0⟩ := by
    cases a with
    | z => exact absurd rfl plane
    | _ => rfl
  have real : ∀ q : Point ℝ, q.exact.get a = .real (q.get a) := fun q => by cases a <;> rfl
  refine ⟨positioning, ?_⟩
  rw [slip]
  refine Machine.gauge_ahead (o := o.get a) (u := p.get a) (by rw [fixed, real]) same (by rw [known, real]) ?_
  have fallen : w.last.physical.get a = w.fallen.physical.get a := by
    rw [Machine.get_physical, Machine.get_physical, position, offset, w.falls.framed.offset]
  rw [fallen, w.physical_fallen plane]
  cases last : (Segment.longMoves (Weave.taperSection tuning segments)).getLast? with
  | none => simp only [Option.elim_none, known, real, add_zero]
  | some m =>
    obtain ⟨_, q, _, stop⟩ := w.placed_longMoves last
    simp only [Option.elim_some, stop, known, real, Exact.toReal_real, add_sub_cancel]

/-- Every stroke before the rest of the loop is drawn at a known height. -/
theorem height_stroke (w : Woven tuning floor run segments) (bounded : floor.IsReal) {s : Stroke Exact}
    (mem : s ∈ Weave.strokes tuning floor segments) :
    s.move.Placed ∧ ∃ h : ℝ, s.height = some (.real h) := by
  obtain ⟨f, rfl⟩ := bounded
  obtain ⟨l, _, layer⟩ := Tuning.layerHeight_of_check w.usable
  rcases List.mem_append.mp mem with risen | tail
  · obtain ⟨step, mem, drawn⟩ := List.mem_filterMap.mp risen
    have proper := w.proper step mem
    have placed : ∀ m, step.segment = .move m → m.Placed := fun m same => by
      refine w.placed m ?_
      rw [← same]
      exact Weave.segment_mem_taperSection mem
    cases step with
    | other => cases drawn
    | still m =>
      cases drawn
      obtain ⟨_, q, _, stop⟩ := placed m rfl
      exact ⟨placed m rfl, q.z, by rw [stop]; rfl⟩
    | ramped m t =>
      cases drawn
      obtain ⟨_, q, _, stop⟩ := placed m rfl
      obtain ⟨_, h, _, _, rfl⟩ := proper
      refine ⟨placed m rfl, max (q.z - (1 - h) * l) f, ?_⟩
      rw [stop, layer]
      exact congrArg some (Weave.risingHeight_real l f h q.z)
  · cases cut : (Weave.cut tuning segments).tail with
    | none => rw [cut] at tail; cases tail
    | some m =>
      rw [cut] at tail
      cases List.mem_singleton.mp tail
      obtain ⟨known, traced⟩ := Segment.traced_of_path w.path
      have here := (Weave.refines_cut w.usable (traced.placed known)).placed m
        (List.mem_append_right _ (by simp [cut]))
      obtain ⟨p, q, start, stop⟩ := here
      refine ⟨⟨p, q, start, stop⟩, max q.z f, ?_⟩
      show some (Scalar.max m.stop.z _) = _
      rw [stop]
      exact congrArg some (Exact.max_real ..)

/-- The strokes before the rest of the loop draw its covered part. -/
theorem moves_strokes (w : Woven tuning floor run segments) :
    (Weave.strokes tuning floor segments).getLast?.map (·.move.stop) =
      Segment.lastStop? (segments.take (Weave.cut tuning segments).remainder) := by
  obtain ⟨known, traced⟩ := Segment.traced_of_path w.path
  have placed := traced.placed known
  have refines := Weave.refines_cut w.usable placed
  have tail : Segment.Placed ((Weave.cut tuning segments).tail.toList.map .move) := refines.placed.of_append.2
  have drawn : (Weave.strokes tuning floor segments).map (·.move) = Segment.moves
      (Weave.taperSection tuning segments ++ (Weave.cut tuning segments).tail.toList.map .move) := by
    rw [Weave.strokes, List.map_append, Step.moves_rise, Weave.segment_steps, Segment.moves_append]
    cases (Weave.cut tuning segments).tail <;> rfl
  rw [← refines.lastStop?_eq, Cut.covered,
    ← ((Weave.refines_taperSection w.usable placed).append (Segment.refines_self tail)).lastStop?_eq, Segment.lastStop?,
    ← drawn, List.getLast?_map, Option.map_map]
  rfl

private theorem offset_boundary (w : Woven tuning floor run segments) : w.boundary.offset = run.start.offset := by
  obtain ⟨front, plain⟩ := w.traced_boundary
  exact (front.pose plain).2.2.1

private theorem offset_met (w : Woven tuning floor run segments) : w.met.offset = run.start.offset := by
  obtain ⟨_, offset, _⟩ := Weave.declared_frame w.risen w.total
  exact w.bridges.framed.offset.trans (offset.trans w.rises.framed.offset)

/-- The last stroke that sets a height sets the one at which the rest of the loop is met. -/
private theorem physical_met_height (w : Woven tuning floor run segments) :
    w.met.physical.z = (Weave.strokes tuning floor segments).foldl (fun z s => s.height.getD z) run.start.physical.z := by
  obtain ⟨position, offset, _⟩ := Weave.declared_frame w.risen w.total
  have declared : (Weave.declared w.risen w.total).physical = w.risen.physical := by
    rw [Machine.physical, Machine.physical, position, offset]
  have bridges := w.bridges
  rw [← total] at bridges
  rw [bridges.physical_z, declared, w.rises.physical_z, Weave.strokes, List.foldl_append]

/-- Where the rest of the loop is met, the head is as much too high as the last stroke was. -/
theorem ahead_met_height (w : Woven tuning floor run segments) (bounded : floor.IsReal) :
    Machine.Ahead (.axis .z) ⟨Weave.sag tuning floor segments, 0⟩ w.boundary w.met := by
  obtain ⟨known, _⟩ := Segment.traced_of_path w.path
  obtain ⟨front, plain⟩ := w.traced_boundary
  obtain ⟨o, fixed⟩ := Machine.fixed_of_physicalKnown known
  obtain ⟨p, start⟩ := Machine.exists_physical known
  have met := w.physical_met_height
  have boundary := congrArg Point.z (front.physical_last plain)
  rw [← w.moves_strokes] at boundary
  have offset_z : w.boundary.offset.get .z = .real o.z := by rw [w.offset_boundary, fixed]; rfl
  have same : w.met.offset.get .z = w.boundary.offset.get .z := by rw [w.offset_met, w.offset_boundary]
  refine ⟨w.level.x.1, ?_⟩
  rcases List.eq_nil_or_concat (Weave.strokes tuning floor segments) with none | ⟨before, s, split⟩
  · rw [none] at met boundary
    have sag : Weave.sag tuning floor segments = 0 := by rw [Weave.sag, none]; rfl
    have start_z : run.start.physical.z = .real p.z := by rw [start]; rfl
    rw [sag]
    exact Machine.gauge_ahead offset_z same (boundary.trans start_z) (by rw [add_zero]; exact met.trans start_z)
  · obtain ⟨⟨_, q, _, stop⟩, h, height⟩ :=
      w.height_stroke bounded (s := s)
        (by rw [split, List.concat_eq_append]; exact List.mem_append_right _ (List.mem_singleton_self s))
    have sag : Weave.sag tuning floor segments = h - q.z := by
      rw [Weave.sag, split, List.concat_eq_append, List.getLast?_concat, Option.elim_some, height, stop]
      rfl
    rw [split, List.concat_eq_append, List.foldl_append] at met
    rw [split, List.concat_eq_append, List.getLast?_concat] at boundary
    have stop_z : w.boundary.physical.z = .real q.z := by rw [boundary]; simp [stop, Point.exact]
    rw [sag]
    refine Machine.gauge_ahead offset_z same stop_z ?_
    rw [add_sub_cancel]
    exact met.trans (by simp [height])

private theorem physical_fallen_height (w : Woven tuning floor run segments) : w.fallen.physical.z = w.joined.physical.z := by
  rw [w.falls.physical_z]
  induction Weave.steps tuning segments with
  | nil => rfl
  | cons step steps ih =>
    cases step with
    | ramped m t => rw [List.filterMap_cons_some (by rfl), List.foldl_cons]; exact ih
    | _ => rw [List.filterMap_cons_none (by rfl)]; exact ih

private theorem ahead_last_height (w : Woven tuning floor run segments) (bounded : floor.IsReal) :
    Machine.Ahead (.axis .z) (Weave.slip tuning floor run segments .z) run.finish w.last := by
  have replayed := w.continued.replay
  have followed := w.follows.replay
  rw [w.source_lines] at replayed
  rw [w.rest_lines] at followed
  obtain ⟨_, gauge⟩ := (w.ahead_met_height bounded).replay replayed followed
  obtain ⟨positioning, position, offset⟩ := w.frame_last
  have boundary : w.boundary.mode (.axis .z) = run.start.positioning := by
    obtain ⟨front, plain⟩ := w.traced_boundary
    exact (front.pose plain).2.1
  obtain ⟨o, fixed⟩ := Machine.fixed_of_physicalKnown w.finish_known
  have shift : w.joined.offset.z = run.finish.offset.z + .real _ := congrArg Gauge.offset gauge
  rw [fixed] at shift
  have kept : w.fallen.position.z = w.joined.position.z := by
    have same := w.physical_fallen_height
    change w.fallen.position.z + w.fallen.offset.z = w.joined.position.z + w.joined.offset.z at same
    rw [w.falls.framed.offset, shift, Point.exact, Exact.real_add] at same
    exact Exact.add_right_cancel same
  have last : w.last.gauge (.axis .z) = w.joined.gauge (.axis .z) := by
    rw [Machine.gauge, Machine.gauge, position, offset]
    exact congrArg (Gauge.mk · _) kept
  rw [boundary] at gauge
  exact ⟨positioning, last.trans gauge⟩

/-- On every axis the head slips by what the tapers leave. -/
theorem ahead_last (w : Woven tuning floor run segments) (bounded : floor.IsReal) (a : Axis) :
    Machine.Ahead (.axis a) (Weave.slip tuning floor run segments a) run.finish w.last := by
  by_cases plane : a = .z
  · rw [plane]; exact w.ahead_last_height bounded
  · exact w.ahead_last_plane plane

end Woven

end Seam
