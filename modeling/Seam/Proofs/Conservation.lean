import Seam.Proofs.Course
import Seam.Proofs.Filament

/-!
Conservation of filament in a tapered loop. The counts behind the tapered loop
differ from those behind the loop as it was by what the rest of the loop left of
the lead (`Woven.gauge_last`). In a loop that does not switch the mode of extrusion
no filament is lost or gained beyond what a declared total may be off by
(`Weave.conserved_of_tapered`).
-/
namespace Seam

/-- The ending taper repeats the lines of the section that set a mode of extrusion. -/
private theorem Weave.mode?_falling (tuning : Tuning Exact) (segments : List (Segment Exact)) :
    Pose.mode? ((steps tuning segments).filterMap (Step.trace? Step.fall?)) =
      Pose.mode? (taperSection tuning segments) := by
  rw [← segment_steps]
  induction steps tuning segments with
  | nil => rfl
  | cons step steps ih =>
    cases step with
    | other c => exact congrArg (Option.or · _) ih
    | still m => exact ih
    | ramped m t => exact ih

namespace Woven

variable {tuning : Tuning Exact} {floor : Exact} {run : Run Exact} {segments : List (Segment Exact)}

/-- The lead with which the rest of the loop is met. -/
noncomputable def lead (w : Woven tuning floor run segments) : Lead := ⟨w.headway, -w.shortfall - w.headway⟩

/-- What becomes of the lead in the rest of the loop. -/
noncomputable def settlement (w : Woven tuning floor run segments) : Settlement :=
  Settlement.ofLines w.boundary.extrusionMode (Weave.remainder tuning segments run)

private theorem ahead_joined (w : Woven tuning floor run segments) (counted : run.Counted) :
    Machine.Ahead .filament (w.lead.settle w.settlement) run.finish w.joined := by
  have replayed := w.continued.replay
  have followed := w.follows.replay
  rw [w.source_lines] at replayed
  rw [w.rest_lines] at followed
  have ahead := (w.ahead_met counted).replay replayed followed
  rwa [Lead.through_filament] at ahead

private theorem counted_boundary (w : Woven tuning floor run segments) (counted : run.Counted) : w.boundary.Counted :=
  counted.1.replay (fun c mem => counted.2 c (List.mem_of_mem_take mem)) w.replayed

theorem counted_source (w : Woven tuning floor run segments) (counted : run.Counted) :
    run.finish.Counted ∧ ∀ t ∈ w.source, t.pushed.IsReal := by
  refine w.continued.counted (w.counted_boundary counted) fun t mem => counted.2 t.line ?_
  have listed : t.line ∈ w.source.map (·.line) := List.mem_map_of_mem mem
  rw [w.source_lines] at listed
  exact List.mem_of_mem_drop listed

/-- The rest of the loop pushes what it pushed exactly if it reaches no total
    while the lead still counts. -/
theorem evenly_iff (w : Woven tuning floor run segments) (counted : run.Counted) :
    List.Forall₂ (fun t u => Exact.Near u.pushed t.pushed) w.source w.rest ↔
      (w.settlement = .reached → |w.headway| < Weave.slack) := by
  have evenly := (w.ahead_met counted).evenly_iff w.continued w.follows (w.rest_lines.trans w.source_lines.symm)
    (w.counted_source counted).2
  rwa [w.source_lines] at evenly

/-- The logical lead behind the ending taper. -/
noncomputable def surplus (w : Woven tuning floor run segments) : ℝ :=
  (w.lead.settle w.settlement).logical + w.shortfall

open Classical in
/-- The logical lead behind the tapered loop: none if a total is declared last. -/
noncomputable def excess (w : Woven tuning floor run segments) : ℝ :=
  if w.fallen.extrusionMode = .absolute ∧ ¬ |w.surplus| < Weave.slack then 0 else w.surplus

private theorem gauge_fallen (w : Woven tuning floor run segments) (counted : run.Counted) :
    w.fallen.gauge .filament =
      (run.finish.gauge .filament).ahead ⟨w.surplus, (w.lead.settle w.settlement).offset⟩ := by
  obtain ⟨_, gauge⟩ := w.ahead_joined counted
  obtain ⟨e, count⟩ := (w.counted_source counted).1.1
  have logical : w.joined.extrusion = .real (e + (w.lead.settle w.settlement).logical) := by
    rw [← Exact.real_add, ← count]
    exact congrArg Gauge.logical gauge
  have offset : w.joined.extrusionOffset = run.finish.extrusionOffset + .real (w.lead.settle w.settlement).offset :=
    congrArg Gauge.offset gauge
  have fed := w.fed_section counted
  rw [← Weave.segment_steps] at fed
  have falls := w.falls.extrusion ⟨_, logical⟩ (Step.shares tuning.layerHeight floor w.proper fed).2.1
  rw [Machine.gauge, Machine.gauge, falls, w.falls.framed.extrusionOffset, offset, logical, count]
  simp only [Gauge.ahead, Exact.real_add, Exact.toReal_real, Gauge.mk.injEq, and_true, Exact.real.injEq, surplus,
    shortfall, Weave.shortfall]
  ring

theorem gauge_last (w : Woven tuning floor run segments) (counted : run.Counted) :
    w.last.gauge .filament = (run.finish.gauge .filament).ahead
      ⟨w.excess, (w.lead.settle w.settlement).offset + w.surplus - w.excess⟩ := by
  have fallen := w.gauge_fallen counted
  obtain ⟨e, count⟩ := (w.counted_source counted).1.1
  have logical : w.fallen.extrusion = .real (e + w.surplus) := by
    rw [← Exact.real_add, ← count]
    exact congrArg Gauge.logical fallen
  have off : w.fallen.extrusion - run.finish.extrusion = .real w.surplus := by
    rw [logical, count, Exact.real_sub, add_sub_cancel_left]
  rw [last, Weave.declared_eq _ _ off, excess]
  split
  case isTrue =>
    have offset : w.fallen.extrusionOffset = run.finish.extrusionOffset + .real (w.lead.settle w.settlement).offset :=
      congrArg Gauge.offset fallen
    have renamed : (w.fallen.declareExtrusion (some run.finish.extrusion)).gauge .filament =
        ⟨run.finish.extrusion, w.fallen.extrusionOffset - (run.finish.extrusion - w.fallen.extrusion)⟩ := rfl
    rw [renamed, offset, logical, count, Exact.real_sub, Exact.sub_eq, Exact.negate_real, Exact.add_assoc,
      Exact.real_add, Machine.gauge, Gauge.ahead, count]
    simp
  case isFalse => rw [fallen, add_sub_cancel_right]

/-- The physical count is off by the headway if that was pushed away, and not at all otherwise. -/
theorem physical_last (w : Woven tuning floor run segments) (counted : run.Counted) :
    w.last.physicalExtrusion =
      run.finish.physicalExtrusion + .real (if w.settlement = .reached then -w.headway else 0) := by
  have physical : (w.last.gauge .filament).physical = _ := congrArg Gauge.physical (w.gauge_last counted)
  rw [Gauge.physical_ahead] at physical
  refine physical.trans (congrArg (_ + Exact.real ·) ?_)
  rw [Lead.physical, add_sub_cancel, surplus]
  cases w.settlement <;> simp only [Lead.settle, lead, reduceCtorEq, ↓reduceIte] <;> ring

theorem headway_lt (w : Woven tuning floor run segments) (absolute : w.boundary.extrusionMode = .absolute) :
    |w.headway| < Weave.slack := by
  by_cases small : |w.shortfall| < Weave.slack
  · rw [headway, if_neg fun renamed => renamed.2 small, abs_neg]
    exact small
  · rw [headway, if_pos ⟨absolute, small⟩, abs_zero]
    exact Weave.slack_pos

theorem excess_lt (w : Woven tuning floor run segments) (absolute : w.fallen.extrusionMode = .absolute) :
    |w.excess| < Weave.slack := by
  by_cases small : |w.surplus| < Weave.slack
  · rw [excess, if_neg fun renamed => renamed.2 small]
    exact small
  · rw [excess, if_pos ⟨absolute, small⟩, abs_zero]
    exact Weave.slack_pos

/-- The ending taper sets the mode of extrusion that the section sets, if it sets one. -/
theorem extrusionMode_fallen (w : Woven tuning floor run segments) :
    w.fallen.extrusionMode = (Pose.mode? (Weave.taperSection tuning segments)).getD run.finish.extrusionMode := by
  have along := congrArg Pose.extrusionMode w.falls.pose
  rw [Pose.extrusionMode_along, Weave.mode?_falling] at along
  have agree := (w.level.passage w.continued w.follows (w.rest_lines.trans w.source_lines.symm)).1
  exact along.trans (congrArg _ agree.extrusionMode)

end Woven

private theorem Machine.extrusionMode_of_steady {α : Type} [Scalar α] {m last : Machine α} {cs : List (Command α)}
    (steady : ∀ c ∈ cs, c.mode? .filament = none) (replayed : m.replay cs = .ok last) :
    last.extrusionMode = m.extrusionMode := by
  induction cs generalizing m with
  | nil => cases replayed; rfl
  | cons c cs ih =>
    obtain ⟨next, stepped, rest⟩ := replay_cons_eq_ok_iff.mp replayed
    have mode : next.extrusionMode = (c.mode? .filament).getD m.extrusionMode := after_mode stepped .filament
    rw [ih (fun c mem => steady c (List.mem_cons_of_mem _ mem)) rest, mode, steady c (List.mem_cons_self ..)]
    rfl

/-- The pieces of a tapered loop: the lines `front` of the first taper and of the
    tail, the rest of the loop, which is `source` in the loop as it was, and the lines
    `back` of the second taper, behind which the machine is `last`. -/
structure Pieces (tuning : Tuning Exact) (floor : Exact) (run : Run Exact) (segments : List (Segment Exact))
    (commands : List (Command Exact)) (front rest back source : List (Transition Exact)) (last : Machine Exact) :
    Prop where
  lines : (front ++ rest ++ back).map (·.line) = commands
  passes : Passage run.start (front ++ rest ++ back) last
  /-- The rest of the loop is untouched. -/
  untouched : ∃ boundary, run.start.replay (run.commands.take (Weave.cut tuning segments).remainder) = .ok boundary ∧
    Passage boundary source run.finish ∧ source.map (·.line) = Weave.remainder tuning segments run ∧
      rest.map (·.line) = Weave.remainder tuning segments run
  /-- The steps are the moves of the section, those that do not stand still with one height on the ramp. -/
  steps : (Weave.steps tuning segments).map Step.segment = Weave.taperSection tuning segments
  proper : ∀ step ∈ Weave.steps tuning segments, step.Proper
  /-- The first taper pushes the filament of each step times its height on the ramp, and all of it where
      the move stands still. -/
  rises : List.Forall₂ (fun t s => t.Draws s ∧ t.pushed = s.share) (front.filter Transition.isLinear)
    ((Weave.steps tuning segments).filterMap (Step.rise? tuning.layerHeight floor) ++
      ((Weave.cut tuning segments).tail.toList.map Step.still).filterMap (Weave.bridge? floor))
  /-- The second taper pushes what is left. -/
  falls : List.Forall₂ (fun t s => t.Draws s ∧ t.pushed = s.share) (back.filter Transition.isLinear)
    ((Weave.steps tuning segments).filterMap Step.fall?)

theorem Woven.pieces {tuning : Tuning Exact} {floor : Exact} {run : Run Exact} {segments : List (Segment Exact)}
    (w : Woven tuning floor run segments) (counted : run.Counted) (markers : Bool) :
    Pieces tuning floor run segments ((w.front markers ++ w.rest ++ w.back markers).map (·.line)) (w.front markers)
      w.rest (w.back markers) w.source w.last where
  lines := rfl
  passes := w.passage markers
  untouched := ⟨w.boundary, w.replayed, w.continued, w.source_lines, w.rest_lines⟩
  steps := Weave.segment_steps ..
  proper := w.proper
  rises := by
    rw [w.filter_front]
    exact w.pushes_front counted
  falls := by
    rw [w.filter_back]
    have fed := w.fed_section counted
    rw [← Weave.segment_steps] at fed
    exact w.falls.pushes ((w.counted_source counted).1.of_ahead (w.ahead_joined counted))
      (Step.shares tuning.layerHeight floor w.proper fed).2.1

/-- No filament is lost or gained in a tapered loop. -/
structure Conserved (tuning : Tuning Exact) (floor : Exact) (run : Run Exact) (segments : List (Segment Exact))
    (commands : List (Command Exact)) (front rest back source : List (Transition Exact)) (last : Machine Exact) : Prop
    extends Pieces tuning floor run segments commands front rest back source last where
  relative : run.start.extrusionMode = .relative → last.physicalExtrusion = run.finish.physicalExtrusion
  absolute : run.start.extrusionMode = .absolute →
    Exact.Near last.physicalExtrusion run.finish.physicalExtrusion ∧ Exact.Near last.extrusion run.finish.extrusion ∧
      List.Forall₂ (fun t u => Exact.Near u.pushed t.pushed) source rest

/-- A tapered loop whose lines do not switch the mode of extrusion conserves filament. -/
theorem Weave.conserved_of_tapered {tuning : Tuning Exact} {floor : Exact} {markers : Bool} {run : Run Exact}
    {segments : List (Segment Exact)} {commands : List (Command Exact)} (usable : tuning.check = .ok ())
    (path : Segment.path? run.start run.commands = .ok (some segments))
    (tapered : weave tuning floor markers run segments = .ok (.tapered commands)) (counted : run.Counted)
    (steady : ∀ c ∈ run.commands, c.mode? .filament = none) :
    ∃ front rest back source last, Conserved tuning floor run segments commands front rest back source last := by
  obtain ⟨w, rfl⟩ := exists_woven usable path tapered
  have boundary_mode : w.boundary.extrusionMode = run.start.extrusionMode :=
    Machine.extrusionMode_of_steady (fun c mem => steady c (List.mem_of_mem_take mem)) w.replayed
  have finish_mode : run.finish.extrusionMode = run.start.extrusionMode :=
    Machine.extrusionMode_of_steady steady run.replays
  have fallen_mode : w.fallen.extrusionMode = run.start.extrusionMode := by
    obtain ⟨known, traced⟩ := Segment.traced_of_path path
    have placed := traced.placed known
    have section_steady : Pose.mode? (taperSection tuning segments) = none := Pose.mode?_eq_none fun c mem => by
      have cut : .other c ∈ (Weave.cut tuning segments).covered :=
        List.mem_append_left _ (((refines_taperSection usable placed).other_mem_iff c).mp mem)
      exact steady c (traced.mem_of_other (List.mem_of_mem_take (((refines_cut usable placed).other_mem_iff c).mp cut)))
    rw [w.extrusionMode_fallen, section_steady, ← finish_mode]
    rfl
  obtain ⟨⟨e, count⟩, ⟨o, offset⟩⟩ := (w.counted_source counted).1
  have physical := w.physical_last counted
  have finish : run.finish.physicalExtrusion = .real (e + o) := by
    rw [Machine.physicalExtrusion, count, offset, Exact.real_add]
  refine ⟨w.front markers, w.rest, w.back markers, w.source, w.last, w.pieces counted markers, ?_, ?_⟩
  · intro relative
    have unreached : w.settlement ≠ .reached := by
      rw [Woven.settlement, boundary_mode, relative]
      exact Settlement.ofLines_relative fun c mem => steady c (List.mem_of_mem_drop mem)
    rw [physical, if_neg unreached, Exact.add_zero]
  · intro absolute
    have headway := w.headway_lt (boundary_mode.trans absolute)
    have excess := w.excess_lt (fallen_mode.trans absolute)
    have logical : w.last.extrusion = run.finish.extrusion + .real w.excess :=
      congrArg Gauge.logical (w.gauge_last counted)
    refine ⟨?_, ?_, (w.evenly_iff counted).mpr fun _ => headway⟩
    · rw [physical, finish, Exact.real_add, Exact.near_real_iff, add_sub_cancel_left]
      split
      · rwa [abs_neg]
      · rw [abs_zero]; exact slack_pos
    · rw [logical, count, Exact.real_add, Exact.near_real_iff, add_sub_cancel_left]
      exact excess

theorem Weave.conserved_of_shuttle :
    (Lane.tuning 1).check = .ok () ∧
      Segment.path? (Lane.shuttle 3 three_pos three_pos).start (Lane.shuttle 3 three_pos three_pos).commands =
          .ok (some (Lane.shuttlePath 3 3 3)) ∧
        (Lane.shuttle 3 three_pos three_pos).Counted ∧
          (∀ c ∈ (Lane.shuttle 3 three_pos three_pos).commands, c.mode? .filament = none) ∧
            ∃ commands,
              weave (Lane.tuning 1) (.real 0) true (Lane.shuttle 3 three_pos three_pos) (Lane.shuttlePath 3 3 3) =
                  .ok (.tapered commands) ∧
                ∃ front rest back source last, Conserved (Lane.tuning 1) (.real 0) (Lane.shuttle 3 three_pos three_pos)
                  (Lane.shuttlePath 3 3 3) commands front rest back source last := by
  have usable : (Lane.tuning 1).check = .ok () := Lane.check_tuning one_pos
  have path := Lane.path_shuttle (a := 3) (three_pos : (0 : ℝ) < 3) (three_pos : (0 : ℝ) < 3)
  have counted := Lane.counted_shuttle 3 (three_pos : (0 : ℝ) < 3) (three_pos : (0 : ℝ) < 3)
  have steady : ∀ c ∈ (Lane.shuttle 3 (three_pos : (0 : ℝ) < 3) (three_pos : (0 : ℝ) < 3)).commands,
      c.mode? .filament = none :=
    List.forall_mem_cons.mpr ⟨rfl, List.forall_mem_cons.mpr ⟨rfl, List.forall_mem_nil _⟩⟩
  obtain ⟨commands, tapered, _⟩ :=
    Lane.weave_shuttle (a := 3) (by norm_num) (three_pos : (0 : ℝ) < 3) (three_pos : (0 : ℝ) < 3) true
  exact ⟨usable, path, counted, steady, commands, tapered, conserved_of_tapered usable path tapered counted steady⟩

end Seam
