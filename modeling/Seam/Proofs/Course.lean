import Seam.Proofs.Lane

/-!
The course of a tapered loop. Replayed from where the loop begins, its lines
never fail: they lead along the section, over the tail of the cut move, along the
rest of the loop as it was written, and along the section once more
(`Weave.course_of_tapered`). Before the section is travelled again, the machine is
in the plane where the loop ended, means its numbers as the loop left them, and
runs at the same feed rate.
-/
namespace Seam

variable {α : Type}

/-- Where in the plane a move leads. -/
def Move.spot (m : Move α) : α × α := (m.stop.x, m.stop.y)

/-- Where in the plane the head is behind a line. -/
def Transition.spot [Scalar α] (t : Transition α) : α × α := (t.after.physical.x, t.after.physical.y)

/-- Where in the plane the straight motions lead, one after the other. -/
def spots [Scalar α] (ts : List (Transition α)) : List (α × α) :=
  (ts.filter Transition.isLinear).map Transition.spot

/-- The machine runs at the feed rate of the move, if that is known. -/
def Transition.RunsAt (t : Transition α) (m : Move α) : Prop :=
  ∀ rate, m.feedRate = some rate → t.after.feedRate = some rate

namespace Machine

variable {here there : Machine Exact}

theorem Level.gauge (level : Level here there) :
    there.gauge (.axis .x) = here.gauge (.axis .x) ∧ there.gauge (.axis .y) = here.gauge (.axis .y) :=
  ⟨level.x.2.trans (Gauge.ahead_zero _), level.y.2.trans (Gauge.ahead_zero _)⟩

theorem Level.physical (level : Level here there) :
    there.physical.x = here.physical.x ∧ there.physical.y = here.physical.y :=
  ⟨congrArg Gauge.physical level.gauge.1, congrArg Gauge.physical level.gauge.2⟩

/-- Machines that agree lead the same lines to the same spots. -/
private theorem spots_of_level {ts us : List (Transition Exact)}
    (alike : List.Forall₂ (fun t u => u.line = t.line ∧ Level t.after u.after) ts us) : spots us = spots ts := by
  induction alike with
  | nil => rfl
  | @cons t u ts us same _ ih =>
    obtain ⟨line, level⟩ := same
    have linear : u.isLinear = t.isLinear := by rw [Transition.isLinear, Transition.isLinear, line]
    have spot : u.spot = t.spot := Prod.ext level.physical.1 level.physical.2
    simp only [spots] at ih ⊢
    by_cases moves : t.isLinear = true
    · rw [List.filter_cons_of_pos moves, List.filter_cons_of_pos (linear.trans moves), List.map_cons, List.map_cons, ih,
        spot]
    · rw [List.filter_cons_of_neg moves, List.filter_cons_of_neg (linear ▸ moves), ih]

end Machine

namespace Step

theorem moves_rise (layerHeight floor : Exact) (steps : List (Step Exact)) :
    (steps.filterMap (rise? layerHeight floor)).map (·.move) = Segment.moves (steps.map segment) := by
  induction steps with
  | nil => rfl
  | cons step steps ih =>
    cases step with
    | other c => exact ih
    | still m => exact congrArg (m :: ·) ih
    | ramped m t => exact congrArg (m :: ·) ih

theorem moves_fall {steps : List (Step Exact)} (placed : Segment.Placed (steps.map segment))
    (proper : ∀ step ∈ steps, step.Proper) :
    (steps.filterMap fall?).map (·.move) = Segment.longMoves (steps.map segment) := by
  induction steps with
  | nil => rfl
  | cons step steps ih =>
    have later := ih placed.of_cons fun step mem => proper step (List.mem_cons_of_mem _ mem)
    have here := proper step (List.mem_cons_self ..)
    cases step with
    | other c => exact later
    | still m => exact later.trans (Segment.longMoves_of_not_long placed.head here).symm
    | ramped m t => exact (congrArg (m :: ·) later).trans (Segment.longMoves_of_long placed.head here.1).symm

end Step

namespace Drawn

variable {stroke? : Step Exact → Option (Stroke Exact)} {m last : Machine Exact} {steps : List (Step Exact)}
  {ts : List (Transition Exact)}

private theorem spots_eq (drawn : Drawn stroke? m steps ts last) :
    spots ts = ((steps.filterMap stroke?).map (·.move)).map Move.spot := by
  rw [spots, List.map_map, ← List.forall₂_eq_eq_eq]
  exact List.forall₂_map_left_iff.mpr (List.forall₂_map_right_iff.mpr
    (drawn.strokes.imp fun _ _ draws => Prod.ext draws.x draws.y))

private theorem runsAt (drawn : Drawn stroke? m steps ts last) :
    List.Forall₂ Transition.RunsAt (ts.filter Transition.isLinear) ((steps.filterMap stroke?).map (·.move)) := by
  refine List.forall₂_map_right_iff.mpr (drawn.strokes.imp fun t s draws rate known => ?_)
  rw [draws.feedRate, known]
  rfl

end Drawn

namespace Weave

private theorem isLinear_marker [Scalar α] (markers : Bool) (m : Machine α) (text : String) :
    (marker markers m text).filter Transition.isLinear = [] := by
  cases markers <;> rfl

private theorem isLinear_declaration [Scalar α] (m : Machine α) (total : α) :
    (declaration m total).filter Transition.isLinear = [] := by
  unfold declaration declareTotal
  split <;> rfl

end Weave

namespace Woven

variable {tuning : Tuning Exact} {floor : Exact} {run : Run Exact} {segments : List (Segment Exact)}

theorem filter_front (w : Woven tuning floor run segments) (markers : Bool) :
    (w.front markers).filter Transition.isLinear =
      w.starting.filter Transition.isLinear ++ w.bridging.filter Transition.isLinear := by
  simp only [front, List.filter_append, Weave.isLinear_marker, Weave.isLinear_declaration, List.nil_append,
    List.append_nil]

theorem filter_back (w : Woven tuning floor run segments) (markers : Bool) :
    (w.back markers).filter Transition.isLinear = w.ending.filter Transition.isLinear := by
  simp only [back, List.filter_append, Weave.isLinear_marker, Weave.isLinear_declaration, List.append_nil]

theorem moves_fall (w : Woven tuning floor run segments) :
    ((Weave.steps tuning segments).filterMap Step.fall?).map (·.move) =
      Segment.longMoves (Weave.taperSection tuning segments) := by
  rw [Step.moves_fall (by rw [Weave.segment_steps]; exact w.placed) w.proper, Weave.segment_steps]

end Woven

/-- The course of a tapered loop: the lines `front` of the first taper and of the
    tail, the rest of the loop, and the lines `back` of the second taper. The
    machine is `joined` between the rest and the second taper. -/
structure Course (tuning : Tuning Exact) (run : Run Exact) (segments : List (Segment Exact))
    (commands : List (Command Exact)) (front rest back : List (Transition Exact)) (joined : Machine Exact) : Prop where
  lines : (front ++ rest ++ back).map (·.line) = commands
  passes : Passage run.start (front ++ rest) joined
  closes : ∃ last, Passage joined back last
  /-- The section refines the cut path, which with the tail refines the lines of the loop that it covers. -/
  refines_cut : Segment.Refines (segments.take (Weave.cut tuning segments).remainder) (Weave.cut tuning segments).covered
  refines_section : Segment.Refines (Weave.cut tuning segments).taper (Weave.taperSection tuning segments)
  untouched : rest.map (·.line) = Weave.remainder tuning segments run
  spots_front : spots front = (Segment.moves (Weave.taperSection tuning segments)).map Move.spot ++
    (Weave.cut tuning segments).tail.toList.map Move.spot
  /-- The rest leads where it led in the loop as it was. -/
  spots_rest : ∃ boundary source, run.start.replay (run.commands.take (Weave.cut tuning segments).remainder) =
      .ok boundary ∧ Passage boundary source run.finish ∧ source.map (·.line) = Weave.remainder tuning segments run ∧
        spots rest = spots source
  spots_back : spots back = (Segment.longMoves (Weave.taperSection tuning segments)).map Move.spot
  rates_front : List.Forall₂ Transition.RunsAt (front.filter Transition.isLinear)
    (Segment.moves (Weave.taperSection tuning segments) ++ (Weave.cut tuning segments).tail.toList)
  rates_back : List.Forall₂ Transition.RunsAt (back.filter Transition.isLinear)
    (Segment.longMoves (Weave.taperSection tuning segments))
  physical_x : joined.physical.x = run.finish.physical.x
  physical_y : joined.physical.y = run.finish.physical.y
  offset_x : joined.offset.x = run.finish.offset.x
  offset_y : joined.offset.y = run.finish.offset.y
  positioning : joined.positioning = run.finish.positioning
  extrusionMode : joined.extrusionMode = run.finish.extrusionMode
  feedRate : joined.feedRate = run.finish.feedRate

/-- A tapered loop runs its course from where the loop begins, whatever the floor and the markers. -/
theorem Weave.course_of_tapered {tuning : Tuning Exact} {floor : Exact} {markers : Bool} {run : Run Exact}
    {segments : List (Segment Exact)} {commands : List (Command Exact)} (usable : tuning.check = .ok ())
    (path : Segment.path? run.start run.commands = .ok (some segments))
    (tapered : weave tuning floor markers run segments = .ok (.tapered commands)) :
    ∃ front rest back joined, Course tuning run segments commands front rest back joined := by
  obtain ⟨w, lines⟩ := exists_woven usable path tapered
  obtain ⟨known, traced⟩ := Segment.traced_of_path path
  have placed := traced.placed known
  obtain ⟨agree, alike⟩ := w.level.passage w.continued w.follows (w.rest_lines.trans w.source_lines.symm)
  have risen_moves := Step.moves_rise tuning.layerHeight floor (steps tuning segments)
  have fallen_moves := w.moves_fall
  have tail_moves : ((cut tuning segments).tail.toList.map Step.still |>.filterMap (bridge? floor)).map (·.move) =
      (cut tuning segments).tail.toList := by
    cases (cut tuning segments).tail <;> rfl
  rw [segment_steps] at risen_moves
  refine ⟨w.front markers, w.rest, w.back markers, w.joined, ?_⟩
  constructor
  case lines => exact lines
  case passes => exact (w.passage_front markers).append w.follows
  case closes => exact ⟨w.last, w.passage_back markers⟩
  case refines_cut => exact refines_cut usable placed
  case refines_section => exact refines_taperSection usable placed
  case untouched => exact w.rest_lines
  case spots_front =>
    rw [spots, w.filter_front, List.map_append]
    rw [← spots, ← spots, w.rises.spots_eq, w.bridges.spots_eq, risen_moves, tail_moves]
  case spots_rest => exact ⟨w.boundary, w.source, w.replayed, w.continued, w.source_lines, Machine.spots_of_level alike⟩
  case spots_back => rw [spots, w.filter_back, ← spots, w.falls.spots_eq, fallen_moves]
  case rates_front =>
    rw [w.filter_front, ← risen_moves, ← tail_moves]
    exact List.rel_append w.rises.runsAt w.bridges.runsAt
  case rates_back =>
    rw [w.filter_back, ← fallen_moves]
    exact w.falls.runsAt
  case physical_x => exact agree.physical.1
  case physical_y => exact agree.physical.2
  case offset_x => exact congrArg Gauge.offset agree.gauge.1
  case offset_y => exact congrArg Gauge.offset agree.gauge.2
  case positioning => exact agree.x.1
  case extrusionMode => exact agree.extrusionMode
  case feedRate => exact agree.feedRate

theorem Weave.course_of_shuttle :
    (Lane.tuning 1).check = .ok () ∧
      Segment.path? (Lane.shuttle 3 three_pos three_pos).start (Lane.shuttle 3 three_pos three_pos).commands =
          .ok (some (Lane.shuttlePath 3 3 3)) ∧
        ∃ commands, weave (Lane.tuning 1) (.real 0) true (Lane.shuttle 3 three_pos three_pos) (Lane.shuttlePath 3 3 3) =
            .ok (.tapered commands) ∧
          ∃ front rest back joined, Course (Lane.tuning 1) (Lane.shuttle 3 three_pos three_pos) (Lane.shuttlePath 3 3 3)
            commands front rest back joined := by
  have usable : (Lane.tuning 1).check = .ok () := Lane.check_tuning one_pos
  have path := Lane.path_shuttle (a := 3) (three_pos : (0 : ℝ) < 3) (three_pos : (0 : ℝ) < 3)
  obtain ⟨commands, tapered, _⟩ :=
    Lane.weave_shuttle (a := 3) (by norm_num) (three_pos : (0 : ℝ) < 3) (three_pos : (0 : ℝ) < 3) true
  exact ⟨usable, path, commands, tapered, course_of_tapered usable path tapered⟩

end Seam
