import Seam.Proofs.Drawing
import Seam.Proofs.Lead

/-!
A tapered loop in its pieces: the starting taper, the joint behind it, the rest
of the loop as it was written, and the ending taper, each with the machine behind
it (`Woven`). A loop is tapered exactly if it has these pieces
(`Weave.weave_eq_tapered_iff`, `Weave.exists_woven`).
-/
namespace Seam

namespace Weave

section
variable {α : Type} [Scalar α] (tuning : Tuning α) (segments : List (Segment α))

def overlap : α := Segment.effectiveOverlap tuning.overlap (Segment.pathLength segments)

/-- The path of the loop, cut where the overlap ends. -/
def cut : Cut α := Cut.ofLength (overlap tuning segments) segments

/-- The section that is travelled twice, in steps no longer than the resolution. -/
def taperSection : List (Segment α) := Segment.resample tuning.taperResolution (cut tuning segments).taper

def steps : List (Step α) := Ramp.steps (overlap tuning segments) (taperSection tuning segments)

/-- The lines of the loop behind the cut move. -/
def remainder (run : Run α) : List (Command α) := run.commands.drop (cut tuning segments).remainder

theorem segment_steps : (steps tuning segments).map Step.segment = taperSection tuning segments :=
  Ramp.segment_place ..

variable {tuning segments} {floor : α} {markers : Bool} {run : Run α} {commands : List (Command α)}

theorem segment_mem_taperSection {step : Step α} (mem : step ∈ steps tuning segments) :
    step.segment ∈ taperSection tuning segments := by
  rw [← segment_steps]
  exact List.mem_map_of_mem mem

theorem weave_eq : weave tuning floor markers run segments = (do
    let (starting, risen) ←
      emit (fun m step => .ok (some (rising tuning.layerHeight floor m step))) run.start (steps tuning segments)
    let boundary ← run.start.replay (run.commands.take (cut tuning segments).remainder)
    let joining ← joint floor boundary.extrusion (cut tuning segments).tail risen
    let joined ← risen.replay (joining ++ remainder tuning segments run)
    let (ending, fallen) ←
      emit falling joined ((steps tuning segments).takeWhile fun step => step.alteration?.isNone)
    match (steps tuning segments).findSome? Step.alteration? with
    | some culprit => return .abandoned culprit
    | none =>
      return .tapered (bracket markers (starting ++ joining ++ remainder tuning segments run ++ ending ++
        declareTotal fallen run.finish.extrusion))) := rfl

theorem weave_eq_tapered_iff :
    weave tuning floor markers run segments = .ok (.tapered commands) ↔
      ∃ starting risen boundary joining joined ending fallen,
        (∀ step ∈ steps tuning segments, step.alteration? = none) ∧
          emit (fun m step => .ok (some (rising tuning.layerHeight floor m step))) run.start (steps tuning segments) =
            .ok (starting, risen) ∧
          run.start.replay (run.commands.take (cut tuning segments).remainder) = .ok boundary ∧
          joint floor boundary.extrusion (cut tuning segments).tail risen = .ok joining ∧
          risen.replay (joining ++ remainder tuning segments run) = .ok joined ∧
          emit falling joined (steps tuning segments) = .ok (ending, fallen) ∧
          commands = bracket markers (starting ++ joining ++ remainder tuning segments run ++ ending ++
            declareTotal fallen run.finish.extrusion) := by
  rw [weave_eq]
  cases culprit : (steps tuning segments).findSome? Step.alteration? with
  | some c =>
    obtain ⟨step, mem, alters⟩ := List.exists_of_findSome?_eq_some culprit
    simp only [Except.bind_eq_ok_iff, pure, Except.pure, Except.ok.injEq, reduceCtorEq, and_false, exists_false,
      false_iff]
    rintro ⟨_, _, _, _, _, _, _, plain, _⟩
    rw [plain step mem] at alters
    cases alters
  | none =>
    have plain : ∀ step ∈ steps tuning segments, step.alteration? = none := List.findSome?_eq_none_iff.mp culprit
    have whole : (steps tuning segments).takeWhile (fun step => step.alteration?.isNone) = steps tuning segments :=
      List.takeWhile_eq_self_iff.mpr fun step mem => by rw [plain step mem]; rfl
    simp only [Except.bind_eq_ok_iff, Prod.exists, pure, Except.pure, Except.ok.injEq, Outcome.tapered.injEq, whole]
    constructor
    · rintro ⟨starting, risen, rises, boundary, replayed, joining, joins, joined, follows, ending, fallen, falls, rfl⟩
      exact ⟨starting, risen, boundary, joining, joined, ending, fallen, plain, rises, replayed, joins, follows, falls,
        rfl⟩
    · rintro ⟨starting, risen, boundary, joining, joined, ending, fallen, _, rises, replayed, joins, follows, falls,
        rfl⟩
      exact ⟨starting, risen, rises, boundary, replayed, joining, joins, joined, follows, ending, fallen, falls, rfl⟩

/-- The total of extrusion that is declared before the tail, if one is needed. -/
def resumption (total : α) (tail : Option (Move α)) : α := tail.elim total fun move => total - move.extrusion

theorem joint_eq_ok_iff {total : α} {tail : Option (Move α)} {m : Machine α} :
    joint floor total tail m = .ok commands ↔
      commands = declareTotal m (resumption total tail) ++
        tail.toList.map (tailLine floor (declared m (resumption total tail))) := by
  cases tail with
  | none => simp [joint, resumption, eq_comm]
  | some move => simp [joint, resumption, replay_declareTotal, bind, Except.bind, pure, Except.pure, eq_comm]

/-- Comments do nothing. -/
theorem replay_bracket (m : Machine α) (markers : Bool) (commands : List (Command α)) :
    m.replay (bracket markers commands) = m.replay commands := by
  cases markers with
  | false => rfl
  | true =>
    show m.replay (commands ++ [_]) = _
    rw [Machine.replay_append]
    cases m.replay commands <;> rfl

/-- A loop is tapered if the machine can be followed through its pieces. -/
theorem exists_tapered {risen boundary met joined fallen : Machine α} {starting ending : List (Command α)}
    (unaltered : ∀ step ∈ steps tuning segments, step.alteration? = none)
    (rises : emit (fun m step => .ok (some (rising tuning.layerHeight floor m step))) run.start (steps tuning segments) =
      .ok (starting, risen))
    (replayed : run.start.replay (run.commands.take (cut tuning segments).remainder) = .ok boundary)
    (bridged : (declared risen (resumption boundary.extrusion (cut tuning segments).tail)).replay
      ((cut tuning segments).tail.toList.map
        (tailLine floor (declared risen (resumption boundary.extrusion (cut tuning segments).tail)))) = .ok met)
    (followed : met.replay (remainder tuning segments run) = .ok joined)
    (falls : emit falling joined (steps tuning segments) = .ok (ending, fallen)) :
    ∃ commands, weave tuning floor markers run segments = .ok (.tapered commands) ∧
      run.start.replay commands = .ok (declared fallen run.finish.extrusion) := by
  have joining := Machine.replay_append_eq_ok_iff.mpr ⟨_, replay_declareTotal .., bridged⟩
  have rest := Machine.replay_append_eq_ok_iff.mpr ⟨_, joining, followed⟩
  refine ⟨_, weave_eq_tapered_iff.mpr ⟨starting, risen, boundary, _, joined, ending, fallen, unaltered, rises, replayed,
    joint_eq_ok_iff.mpr rfl, rest, falls, rfl⟩, ?_⟩
  rw [replay_bracket, List.append_assoc _ _ (remainder tuning segments run)]
  refine Machine.replay_append_eq_ok_iff.mpr ⟨fallen, ?_, replay_declareTotal ..⟩
  refine Machine.replay_append_eq_ok_iff.mpr ⟨joined, ?_, replay_emit falls⟩
  exact Machine.replay_append_eq_ok_iff.mpr ⟨risen, replay_emit rises, rest⟩

/-- A comment as a transition, if markers are wanted. -/
def marker (markers : Bool) (m : Machine α) (text : String) : List (Transition α) :=
  if markers then [⟨m, .comment text, m⟩] else []

theorem passage_marker (markers : Bool) (m : Machine α) (text : String) : Passage m (marker markers m text) m := by
  cases markers
  · exact .nil m
  · exact .cons rfl (.nil m)

/-- What is drawn for the tail of the cut move. -/
def bridge? (floor : α) : Step α → Option (Stroke α)
  | .still m => some ⟨m, m.extrusion, some (Scalar.max m.stop.z floor)⟩
  | _ => none

end

end Weave

/-- What a valid tuning holds. -/
theorem Tuning.lengths_of_check {t : Tuning Exact} (checked : t.check = .ok ()) :
    ∀ entry ∈ t.entries, ∃ r : ℝ, 0 < r ∧ entry.2 = .real r := by
  intro entry mem
  unfold Tuning.check at checked
  split at checked
  · cases checked
  · next clear =>
    have fine := List.findSome?_eq_none_iff.mp clear entry mem
    simp only [objection?] at fine
    split at fine
    · cases fine
    · split at fine
      · cases fine
      · next finite positive =>
        obtain ⟨r, real⟩ := Exact.isFinite_iff.mp (by simpa using finite)
        rw [real, Exact.zero_eq, Exact.real_le, not_le] at positive
        exact ⟨r, positive, real⟩

private theorem Tuning.overlap_of_check {t : Tuning Exact} (checked : t.check = .ok ()) :
    ∃ o : ℝ, 0 < o ∧ t.overlap = .real o :=
  lengths_of_check checked ("overlap", t.overlap) (by simp [entries])

theorem Tuning.taperResolution_of_check {t : Tuning Exact} (checked : t.check = .ok ()) :
    ∃ r : ℝ, 0 < r ∧ t.taperResolution = .real r :=
  lengths_of_check checked ("taper_resolution", t.taperResolution) (by simp [entries])

theorem Tuning.layerHeight_of_check {t : Tuning Exact} (checked : t.check = .ok ()) :
    ∃ l : ℝ, 0 < l ∧ t.layerHeight = .real l :=
  lengths_of_check checked ("layer_height", t.layerHeight) (by simp [entries])

theorem Segment.traced_of_path {α : Type} [Scalar α] {run : Run α} {segments : List (Segment α)}
    (path : Segment.path? run.start run.commands = .ok (some segments)) :
    run.start.physicalKnown = true ∧ Traced run.start.physical.z run.start run.commands segments run.finish := by
  obtain ⟨known, last, traced⟩ := Segment.path?_eq_ok_iff.mp path
  cases traced.replay.symm.trans run.replays
  exact ⟨known, traced⟩

section
variable {tuning : Tuning Exact} {run : Run Exact} {segments : List (Segment Exact)}

namespace Weave

theorem overlap_eq (usable : tuning.check = .ok ()) (placed : Segment.Placed segments) :
    ∃ o, 0 < o ∧ tuning.overlap = .real o ∧ overlap tuning segments = .real (min o (Segment.span segments / 3)) := by
  obtain ⟨o, positive, real⟩ := Tuning.overlap_of_check usable
  refine ⟨o, positive, real, ?_⟩
  rw [overlap, Segment.effectiveOverlap, placed.pathLength, real, Exact.three_eq, Exact.real_div (by norm_num),
    Exact.min_real]

theorem refines_cut (usable : tuning.check = .ok ()) (placed : Segment.Placed segments) :
    Segment.Refines (segments.take (cut tuning segments).remainder) (cut tuning segments).covered := by
  obtain ⟨o, _, _, overlap⟩ := overlap_eq usable placed
  rw [cut, overlap]
  exact Cut.refines_covered placed

theorem refines_taperSection (usable : tuning.check = .ok ()) (placed : Segment.Placed segments) :
    Segment.Refines (cut tuning segments).taper (taperSection tuning segments) := by
  obtain ⟨r, positive, resolution⟩ := Tuning.taperResolution_of_check usable
  rw [taperSection, resolution]
  exact Segment.refines_resample (refines_cut usable placed).placed.of_append.1 positive

theorem proper_steps (usable : tuning.check = .ok ()) (placed : Segment.Placed segments) :
    ∀ step ∈ steps tuning segments, step.Proper := by
  obtain ⟨o, _, _, overlap⟩ := overlap_eq usable placed
  rw [steps, overlap]
  exact Ramp.proper_steps _ (refines_taperSection usable placed).placed

theorem mem_of_other_taperSection (usable : tuning.check = .ok ()) (placed : Segment.Placed segments) {c : Command Exact}
    (mem : .other c ∈ taperSection tuning segments) : .other c ∈ segments := by
  have covered : .other c ∈ (cut tuning segments).covered :=
    List.mem_append_left _ (((refines_taperSection usable placed).other_mem_iff c).mp mem)
  exact List.mem_of_mem_take (((refines_cut usable placed).other_mem_iff c).mp covered)

/-- No line of the covered part of the loop changes what coordinates mean if none of the section does. -/
theorem plain_taken (usable : tuning.check = .ok ()) (placed : Segment.Placed segments)
    (plain : Segment.Plain (taperSection tuning segments)) :
    Segment.Plain (segments.take (cut tuning segments).remainder) := by
  rw [← (refines_cut usable placed).plain_iff]
  intro c mem
  rcases List.mem_append.mp mem with taper | tail
  · exact (refines_taperSection usable placed).plain_iff.mp plain c taper
  · obtain ⟨_, _, same⟩ := List.mem_map.mp tail
    cases same

/-- The lines of a section on which no step is an alteration are idle. -/
private theorem plain_taperSection (usable : tuning.check = .ok ())
    (path : Segment.path? run.start run.commands = .ok (some segments))
    (unaltered : ∀ step ∈ steps tuning segments, step.alteration? = none) :
    Segment.Plain (taperSection tuning segments) := by
  obtain ⟨known, traced⟩ := Segment.traced_of_path path
  have placed := traced.placed known
  intro c mem
  have written := mem_of_other_taperSection usable placed mem
  rw [← segment_steps] at mem
  obtain ⟨step, mem, same⟩ := List.mem_map.mp mem
  have kept := unaltered step mem
  cases step with
  | other c' =>
    cases same
    rw [Command.isIdle, (traced.still written).1]
    simpa [Step.alteration?] using kept
  | still => cases same
  | ramped => cases same

/-- Coordinates are positions where a loop begins that has a section. -/
private theorem positioning_start (usable : tuning.check = .ok ())
    (path : Segment.path? run.start run.commands = .ok (some segments))
    (plain : Segment.Plain (taperSection tuning segments)) (some : (cut tuning segments).covered ≠ []) :
    run.start.positioning = .absolute := by
  obtain ⟨known, traced⟩ := Segment.traced_of_path path
  have placed := traced.placed known
  obtain ⟨_, front, _⟩ := traced.split (cut tuning segments).remainder
  refine front.positioning (plain_taken usable placed plain) fun none => some ?_
  have refines := refines_cut usable placed
  rw [none] at refines
  exact refines.eq_nil

private theorem covered_ne_nil (some : steps tuning segments ≠ []) : (cut tuning segments).covered ≠ [] := by
  intro none
  rw [Cut.covered, List.append_eq_nil_iff] at none
  exact some (by rw [steps, taperSection, none.1]; rfl)

private theorem segments_ne_nil (usable : tuning.check = .ok ()) (placed : Segment.Placed segments)
    (some : (cut tuning segments).covered ≠ []) : segments ≠ [] := by
  rintro rfl
  exact some (List.take_nil ▸ refines_cut usable placed).eq_nil

theorem trace_rising (layerHeight floor : Exact) :
    (steps tuning segments).filterMap (Step.trace? (Step.rise? layerHeight floor)) = taperSection tuning segments := by
  have all : Step.trace? (Step.rise? layerHeight floor) = some ∘ Step.segment := by
    funext step
    cases step <;> rfl
  rw [all, List.filterMap_eq_map, segment_steps]

theorem trace_bridge (floor : Exact) (tail : Option (Move Exact)) :
    (tail.toList.map Step.still).filterMap (Step.trace? (bridge? floor)) = tail.toList.map .move := by
  cases tail <;> rfl

end Weave
end

/-- Machines of one pose that mean coordinates alike agree on all but the height and the filament. -/
private theorem Machine.level_of_pose {here there : Machine Exact} (fixed : here.Fixed) (pose : there.pose = here.pose)
    (positioning : there.positioning = here.positioning) (same : there.offset = here.offset) : Level here there := by
  obtain ⟨o, offset⟩ := fixed
  rw [Machine.pose, Machine.pose, Pose.mk.injEq] at pose
  obtain ⟨x, y, feedRate, extrusionMode⟩ := pose
  simp only [Machine.physical] at x y
  refine ⟨⟨positioning, ?_⟩, ⟨positioning, ?_⟩, extrusionMode, feedRate⟩
  · have position : there.position.x = here.position.x := by
      refine Exact.add_right_cancel (r := o.x) ?_
      have x : there.position.x + there.offset.x = here.position.x + here.offset.x := x
      rwa [same, offset] at x
    simp only [Machine.gauge, Gauge.ahead_zero, Point.get, position, same]
  · have position : there.position.y = here.position.y := by
      refine Exact.add_right_cancel (r := o.y) ?_
      have y : there.position.y + there.offset.y = here.position.y + here.offset.y := y
      rwa [same, offset] at y
    simp only [Machine.gauge, Gauge.ahead_zero, Point.get, position, same]

/-- The machine that meets the rest of the loop agrees with the one in the loop as it was. -/
private theorem Weave.level_met {tuning : Tuning Exact} {floor total : Exact} {run : Run Exact}
    {segments : List (Segment Exact)} {risen boundary met : Machine Exact}
    {starting bridging : List (Transition Exact)} (usable : tuning.check = .ok ())
    (path : Segment.path? run.start run.commands = .ok (some segments))
    (plain : Segment.Plain (taperSection tuning segments))
    (replayed : run.start.replay (run.commands.take (cut tuning segments).remainder) = .ok boundary)
    (rises : Drawn (Step.rise? tuning.layerHeight floor) run.start (steps tuning segments) starting risen)
    (bridges : Drawn (bridge? floor) (declared risen total) ((cut tuning segments).tail.toList.map .still) bridging met) :
    Machine.Level boundary met := by
  obtain ⟨known, traced⟩ := Segment.traced_of_path path
  have placed := traced.placed known
  obtain ⟨mid, front, _⟩ := traced.split (cut tuning segments).remainder
  have same := replayed.symm.trans front.replay
  cases same
  obtain ⟨pose, positioning, offset, _⟩ := front.pose (plain_taken usable placed plain)
  obtain ⟨position, declaredOffset, declaredPositioning, mode, feedRate⟩ := declared_frame risen total
  have declaredPose : (declared risen total).pose = risen.pose := by
    simp only [Machine.pose, Machine.physical, position, declaredOffset, mode, feedRate]
  refine Machine.level_of_pose ?_ ?_ ?_ ?_
  · rw [Machine.Fixed, offset]
    exact Machine.fixed_of_physicalKnown known
  · rw [bridges.pose, trace_bridge, declaredPose, rises.pose, trace_rising,
      (refines_taperSection usable placed).along, ← Pose.along_append, pose,
      ← (refines_cut usable placed).along]
    rfl
  · rw [bridges.framed.positioning, declaredPositioning, rises.framed.positioning, positioning]
  · rw [bridges.framed.offset, declaredOffset, rises.framed.offset, offset]

/-- A tapered loop in its pieces, with the machine behind each of them. -/
structure Woven (tuning : Tuning Exact) (floor : Exact) (run : Run Exact) (segments : List (Segment Exact)) where
  usable : tuning.check = .ok ()
  path : Segment.path? run.start run.commands = .ok (some segments)
  plain : Segment.Plain (Weave.taperSection tuning segments)
  /-- The machine in the loop as it was, behind the cut move. -/
  boundary : Machine Exact
  replayed : run.start.replay (run.commands.take (Weave.cut tuning segments).remainder) = .ok boundary
  /-- The rest of the loop as it was. -/
  source : List (Transition Exact)
  continued : Passage boundary source run.finish
  source_lines : source.map (·.line) = Weave.remainder tuning segments run
  starting : List (Transition Exact)
  risen : Machine Exact
  rises : Drawn (Step.rise? tuning.layerHeight floor) run.start (Weave.steps tuning segments) starting risen
  bridging : List (Transition Exact)
  /-- The machine in the tapered loop, behind the cut move. -/
  met : Machine Exact
  bridges : Drawn (Weave.bridge? floor)
    (Weave.declared risen (Weave.resumption boundary.extrusion (Weave.cut tuning segments).tail))
    ((Weave.cut tuning segments).tail.toList.map .still) bridging met
  level : Machine.Level boundary met
  /-- The rest of the loop in the tapered one. -/
  rest : List (Transition Exact)
  joined : Machine Exact
  follows : Passage met rest joined
  rest_lines : rest.map (·.line) = Weave.remainder tuning segments run
  ending : List (Transition Exact)
  fallen : Machine Exact
  falls : Drawn Step.fall? joined (Weave.steps tuning segments) ending fallen

namespace Woven

variable {tuning : Tuning Exact} {floor : Exact} {run : Run Exact} {segments : List (Segment Exact)}

/-- The total of extrusion that the tail counts from. -/
noncomputable def total (w : Woven tuning floor run segments) : Exact :=
  Weave.resumption w.boundary.extrusion (Weave.cut tuning segments).tail

/-- The machine behind the tapered loop. -/
noncomputable def last (w : Woven tuning floor run segments) : Machine Exact :=
  Weave.declared w.fallen run.finish.extrusion

/-- The transitions before the rest of the loop. -/
noncomputable def front (w : Woven tuning floor run segments) (markers : Bool) : List (Transition Exact) :=
  Weave.marker markers run.start Weave.startMarker ++ w.starting ++ Weave.declaration w.risen w.total ++ w.bridging

/-- The transitions behind the rest of the loop. -/
noncomputable def back (w : Woven tuning floor run segments) (markers : Bool) : List (Transition Exact) :=
  w.ending ++ Weave.declaration w.fallen run.finish.extrusion ++ Weave.marker markers w.last Weave.endMarker

theorem passage_front (w : Woven tuning floor run segments) (markers : Bool) :
    Passage run.start (w.front markers) w.met :=
  (((Weave.passage_marker ..).append w.rises.passage).append (Weave.passage_declaration ..)).append w.bridges.passage

theorem passage_back (w : Woven tuning floor run segments) (markers : Bool) :
    Passage w.joined (w.back markers) w.last :=
  (w.falls.passage.append (Weave.passage_declaration ..)).append (Weave.passage_marker ..)

/-- The way through the tapered loop. -/
theorem passage (w : Woven tuning floor run segments) (markers : Bool) :
    Passage run.start (w.front markers ++ w.rest ++ w.back markers) w.last :=
  ((w.passage_front markers).append w.follows).append (w.passage_back markers)

theorem placed (w : Woven tuning floor run segments) : Segment.Placed (Weave.taperSection tuning segments) := by
  obtain ⟨known, traced⟩ := Segment.traced_of_path w.path
  exact (Weave.refines_taperSection w.usable (traced.placed known)).placed

theorem proper (w : Woven tuning floor run segments) : ∀ step ∈ Weave.steps tuning segments, step.Proper := by
  obtain ⟨known, traced⟩ := Segment.traced_of_path w.path
  exact Weave.proper_steps w.usable (traced.placed known)

end Woven

private theorem Weave.drawn_bridge {floor : Exact} {m last : Machine Exact} {tail : Option (Move Exact)}
    (absolute : tail ≠ none → m.positioning = .absolute) (fixed : m.Fixed)
    (replayed : m.replay (tail.toList.map (tailLine floor m)) = .ok last) :
    ∃ ts, Drawn (bridge? floor) m (tail.toList.map .still) ts last ∧
      ts.map (·.line) = tail.toList.map (tailLine floor m) := by
  cases tail with
  | none => cases replayed; exact ⟨[], .nil m, rfl⟩
  | some move =>
    obtain ⟨next, stepped, rest⟩ := Machine.replay_cons_eq_ok_iff.mp replayed
    cases rest
    have draws := draws_moveTo (absolute (Option.some_ne_none move)) fixed stepped
    exact ⟨_, .stroke rfl stepped draws (.nil last), rfl⟩

/-- A loop that is tapered has the pieces of a tapered loop. -/
theorem Weave.exists_woven {tuning : Tuning Exact} {floor : Exact} {markers : Bool} {run : Run Exact}
    {segments : List (Segment Exact)} {commands : List (Command Exact)} (usable : tuning.check = .ok ())
    (path : Segment.path? run.start run.commands = .ok (some segments))
    (tapered : weave tuning floor markers run segments = .ok (.tapered commands)) :
    ∃ w : Woven tuning floor run segments,
      (w.front markers ++ w.rest ++ w.back markers).map (·.line) = commands := by
  obtain ⟨starting, risen, boundary, joining, joined, ending, fallen, unaltered, raised, replayed, joins,
    followed, lowered, rfl⟩ := weave_eq_tapered_iff.mp tapered
  have plain := plain_taperSection usable path unaltered
  obtain ⟨known, traced⟩ := Segment.traced_of_path path
  have placed := traced.placed known
  have fixed := Machine.fixed_of_physicalKnown known
  have absolute := positioning_start usable path plain
  have step_plain : Segment.Plain ((steps tuning segments).map Step.segment) := by rwa [segment_steps]
  obtain ⟨starting, rises, rfl⟩ := drawn_rising step_plain (fun some => absolute (covered_ne_nil some)) fixed raised
  rw [joint_eq_ok_iff] at joins
  subst joins
  rw [List.append_assoc, Machine.replay_append_eq_ok_iff] at followed
  obtain ⟨mid, declared_replay, followed⟩ := followed
  cases (replay_declareTotal risen _).symm.trans declared_replay
  obtain ⟨met, bridged, followed⟩ := Machine.replay_append_eq_ok_iff.mp followed
  obtain ⟨_, declaredOffset, declaredPositioning, _, _⟩ :=
    declared_frame risen (resumption boundary.extrusion (cut tuning segments).tail)
  obtain ⟨bridging, bridges, bridging_lines⟩ := drawn_bridge
    (fun some => by
      rw [declaredPositioning, rises.framed.positioning]
      refine absolute fun none => some ?_
      rw [Cut.covered, List.append_eq_nil_iff, List.map_eq_nil_iff, Option.toList_eq_nil_iff] at none
      exact none.2)
    (by rw [Machine.Fixed, declaredOffset, rises.framed.offset]; exact fixed) bridged
  have level := level_met usable path plain replayed rises bridges
  obtain ⟨rest, follows, rest_lines⟩ := Passage.of_replay followed
  have continued : boundary.replay (remainder tuning segments run) = .ok run.finish := by
    have whole := run.replays
    rw [← List.take_append_drop (cut tuning segments).remainder run.commands, Machine.replay_append, replayed] at whole
    exact whole
  obtain ⟨source, continued, source_lines⟩ := Passage.of_replay continued
  have agree := (level.passage continued follows (rest_lines.trans source_lines.symm)).1
  obtain ⟨ending, falls, rfl⟩ := drawn_falling step_plain
    (fun some => agree.x.1.trans (traced.positioning_last (segments_ne_nil usable placed (covered_ne_nil some)))) lowered
  refine ⟨{ usable, path, plain, boundary, replayed, source, continued, source_lines, starting, risen, rises, bridging,
            met, bridges, level, rest, joined, follows, rest_lines, ending, fallen, falls }, ?_⟩
  simp only [Woven.front, Woven.back, Woven.total, List.map_append, line_declaration, bridging_lines, rest_lines,
    List.append_assoc]
  cases markers <;> simp [marker, bracket]

end Seam
