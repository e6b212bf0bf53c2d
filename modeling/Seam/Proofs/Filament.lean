import Seam.Proofs.Settlement
import Seam.Proofs.Woven

/-!
The filament of a tapered loop. What the ending taper pushes is what the starting
taper lacks (`Step.shares`), so the machine that meets the rest of the loop has
pushed less than in the loop as it was by what the ending taper pushes in the
end, and its count is behind by as much unless a total was declared
(`Woven.ahead_met`).
-/
namespace Seam

/-- The counts of filament are reals. -/
def Machine.Counted (m : Machine Exact) : Prop := m.extrusion.IsReal ∧ m.extrusionOffset.IsReal

/-- The number that the line gives for the filament, if any, is a real. -/
def Command.Counted (c : Command Exact) : Prop := ∀ e, c.number? .filament = some e → e.IsReal

theorem Command.Counted.of_bare {c : Command Exact} (bare : c.number? .filament = none) : c.Counted := by
  intro e given
  rw [bare] at given
  cases given

/-- The numbers that the line gives for the dials are reals. -/
def Command.Finite (c : Command Exact) : Prop := ∀ dial v, c.number? dial = some v → v.IsReal

theorem Command.Finite.counted {c : Command Exact} (finite : c.Finite) : c.Counted := finite .filament

/-- All counts of filament in the run are reals. -/
def Run.Counted (r : Run Exact) : Prop := r.start.Counted ∧ ∀ c ∈ r.commands, c.Counted

section
variable {m next last : Machine Exact} {c : Command Exact} {ts : List (Transition Exact)}

theorem Machine.Counted.after (counted : m.Counted) (given : c.Counted) (stepped : m.after c = .ok next) :
    next.Counted := by
  obtain ⟨⟨e, count⟩, ⟨o, offset⟩⟩ := counted
  have shown := after_gauge stepped .filament
  have logical : next.extrusion = (next.gauge .filament).logical := rfl
  have shift : next.extrusionOffset = (next.gauge .filament).offset := rfl
  have here : m.gauge .filament = ⟨.real e, .real o⟩ := by rw [gauge, count, offset]
  rw [here] at shown
  rw [Counted, logical, shift, shown]
  rcases c.effect_filament (m.mode .filament) with same | ⟨v, _, number, same⟩ | ⟨_, same⟩ | ⟨v, number, same⟩
  · rw [same]; exact ⟨⟨e, rfl⟩, ⟨o, rfl⟩⟩
  · rw [same]; exact ⟨given v number, ⟨o, rfl⟩⟩
  · rw [same]
    cases number : c.number? .filament with
    | none => exact ⟨⟨e + 0, by simp [Effect.apply]⟩, ⟨o, rfl⟩⟩
    | some v =>
      obtain ⟨r, real⟩ := given v number
      exact ⟨⟨e + r, by simp [Effect.apply, real]⟩, ⟨o, rfl⟩⟩
  · obtain ⟨r, real⟩ := given v number
    rw [same]
    exact ⟨⟨r, real⟩, ⟨o - (r - e), by simp [Effect.apply, real]⟩⟩

theorem Machine.Counted.pushed {t : Transition Exact} (before : t.before.Counted) (after : t.after.Counted) :
    t.pushed.IsReal := by
  obtain ⟨⟨e, extrusion⟩, ⟨o, offset⟩⟩ := before
  obtain ⟨⟨e', extrusion'⟩, ⟨o', offset'⟩⟩ := after
  exact ⟨e' + o' - (e + o), by
    rw [Transition.pushed, physicalExtrusion, physicalExtrusion, extrusion, offset, extrusion', offset', Exact.real_add,
      Exact.real_add, Exact.real_sub]⟩

theorem Passage.counted (passes : Passage m ts last) (counted : m.Counted) (given : ∀ t ∈ ts, t.line.Counted) :
    last.Counted ∧ ∀ t ∈ ts, t.pushed.IsReal := by
  induction passes with
  | nil => exact ⟨counted, List.forall_mem_nil _⟩
  | cons stepped rest ih =>
    have next := counted.after (given _ (List.mem_cons_self ..)) stepped
    obtain ⟨last, pushed⟩ := ih next fun t mem => given t (List.mem_cons_of_mem _ mem)
    exact ⟨last, List.forall_mem_cons.mpr ⟨Machine.Counted.pushed counted next, pushed⟩⟩

theorem Machine.Counted.replay {cs : List (Command Exact)} (counted : m.Counted) (given : ∀ c ∈ cs, c.Counted)
    (replayed : m.replay cs = .ok last) : last.Counted := by
  obtain ⟨ts, passes, rfl⟩ := Passage.of_replay replayed
  exact (passes.counted counted fun t mem => given t.line (List.mem_map_of_mem mem)).1

theorem Machine.Counted.of_ahead {l : Lead} {here there : Machine Exact} (counted : here.Counted)
    (ahead : Ahead .filament l here there) : there.Counted := by
  obtain ⟨⟨e, extrusion⟩, ⟨o, offset⟩⟩ := counted
  have logical : there.extrusion = here.extrusion + .real l.logical := congrArg Gauge.logical ahead.2
  have shift : there.extrusionOffset = here.extrusionOffset + .real l.offset := congrArg Gauge.offset ahead.2
  exact ⟨⟨_, by rw [logical, extrusion, Exact.real_add]⟩, ⟨_, by rw [shift, offset, Exact.real_add]⟩⟩

/-- The line of a stroke pushes the stroke's filament, and the counts stay reals. -/
theorem Transition.Draws.pushes {t : Transition Exact} {s : Stroke Exact} (draws : t.Draws s)
    (stepped : t.before.after t.line = .ok t.after) (counted : t.before.Counted) (real : s.share.IsReal) :
    t.pushed = s.share ∧ t.after.Counted := by
  obtain ⟨⟨e, extrusion⟩, ⟨o, offset⟩⟩ := counted
  obtain ⟨share, real⟩ := real
  have grown : t.after.extrusion = .real (e + share) := by rw [draws.extrusion, extrusion, real, Exact.real_add]
  have kept : t.after.extrusionOffset = .real o :=
    (Machine.framed_of_isLinear draws.isLinear stepped).extrusionOffset.trans offset
  refine ⟨?_, ⟨_, grown⟩, ⟨_, kept⟩⟩
  rw [Transition.pushed, Machine.physicalExtrusion, Machine.physicalExtrusion, grown, kept, extrusion, offset, real,
    Exact.real_add, Exact.real_add, Exact.real_sub]
  ring_nf

theorem Drawn.pushes {stroke? : Step Exact → Option (Stroke Exact)} {steps : List (Step Exact)}
    (drawn : Drawn stroke? m steps ts last) (counted : m.Counted)
    (shares : ∀ s ∈ steps.filterMap stroke?, s.share.IsReal) :
    List.Forall₂ (fun t s => t.Draws s ∧ t.pushed = s.share) (ts.filter Transition.isLinear)
      (steps.filterMap stroke?) := by
  induction drawn with
  | nil m => exact .nil
  | @other m next _ c _ _ repeated idle stepped _ ih =>
    rw [List.filter_cons_of_neg (by simp [Transition.isLinear, Command.isLinear_of_isIdle idle]),
      List.filterMap_cons_none repeated]
    rw [List.filterMap_cons_none repeated] at shares
    rw [Machine.after_of_isIdle m idle, Except.ok.injEq] at stepped
    subst stepped
    exact ih counted shares
  | @stroke m next _ c _ s _ _ drawn stepped draws _ ih =>
    rw [List.filter_cons_of_pos draws.isLinear, List.filterMap_cons_some drawn]
    rw [List.filterMap_cons_some drawn] at shares
    obtain ⟨pushed, grown⟩ := draws.pushes stepped counted (shares s (List.mem_cons_self ..))
    exact .cons ⟨draws, pushed⟩ (ih grown fun s mem => shares s (List.mem_cons_of_mem _ mem))
  | skip omitted _ ih =>
    rw [List.filterMap_cons_none omitted] at shares ⊢
    exact ih counted shares

theorem Weave.counted_declared {total : Exact} (counted : m.Counted) (real : total.IsReal) :
    (declared m total).Counted := by
  obtain ⟨⟨e, extrusion⟩, ⟨o, offset⟩⟩ := counted
  obtain ⟨t, real⟩ := real
  unfold declared
  split
  · exact ⟨⟨t, real⟩, ⟨o - (t - e), by simp [Machine.declareExtrusion, extrusion, offset, real]⟩⟩
  · exact ⟨⟨e, extrusion⟩, ⟨o, offset⟩⟩

/-- Along a path without declarations the count grows by the filament of the path. -/
theorem Traced.counted {height : Exact} {cs : List (Command Exact)} {segments : List (Segment Exact)}
    (traced : Traced height m cs segments last) (counted : m.Counted) (given : ∀ c ∈ cs, c.Counted) :
    Segment.Fed segments ∧
      (Segment.Plain segments → last.extrusion = .real (m.extrusion.toReal + Segment.total segments)) := by
  induction traced with
  | nil => exact ⟨fun m mem => absurd mem List.not_mem_nil, fun _ => by simpa using counted.1.eq⟩
  | @cons m next last c cs s segments stepped drawn rest ih =>
    have next_counted := counted.after (given c (List.mem_cons_self ..)) stepped
    obtain ⟨fed, grows⟩ := ih next_counted fun c mem => given c (List.mem_cons_of_mem _ mem)
    obtain ⟨e, count⟩ := counted.1
    obtain ⟨e', count'⟩ := next_counted.1
    obtain ⟨_, _, ⟨linear, _, rfl⟩ | ⟨_, _, rfl⟩⟩ := Segment.ofStep?_eq_some_iff.mp drawn
    · have pushed : next.extrusion - m.extrusion = .real (e' - e) := by rw [count, count', Exact.real_sub]
      refine ⟨fun move mem => ?_, fun plain => ?_⟩
      · rcases List.mem_cons.mp mem with same | later
        · cases same; exact ⟨_, pushed⟩
        · exact fed move later
      · rw [grows plain.of_cons, count', count, Segment.total_cons, Segment.filament]
        simp only [Exact.real_sub, Exact.toReal_real, Exact.real.injEq]
        ring
    · refine ⟨fun move mem => ?_, fun plain => ?_⟩
      · rcases List.mem_cons.mp mem with same | later
        · cases same
        · exact fed move later
      · rw [Machine.after_of_isIdle m (plain _ (List.mem_cons_self ..)), Except.ok.injEq] at stepped
        subst stepped
        simpa [Segment.filament] using grows plain.of_cons

end

/-- What the ending taper pushes, which the starting taper lacks. -/
noncomputable def Weave.shortfall (steps : List (Step Exact)) : ℝ :=
  ((steps.filterMap Step.fall?).map (·.share.toReal)).sum

/-- The two tapers together push the filament of the section. -/
theorem Step.shares {steps : List (Step Exact)} (layerHeight floor : Exact) (proper : ∀ step ∈ steps, step.Proper)
    (fed : Segment.Fed (steps.map segment)) :
    (∀ s ∈ steps.filterMap (rise? layerHeight floor), s.share.IsReal) ∧
      (∀ s ∈ steps.filterMap fall?, s.share.IsReal) ∧
        ((steps.filterMap (rise? layerHeight floor)).map (·.share.toReal)).sum =
          Segment.total (steps.map segment) - Weave.shortfall steps := by
  induction steps with
  | nil => exact ⟨List.forall_mem_nil _, List.forall_mem_nil _, by simp [Weave.shortfall]⟩
  | cons step steps ih =>
    obtain ⟨rise, fall, sum⟩ := ih (fun step mem => proper step (List.mem_cons_of_mem _ mem))
      fun m mem => fed m (List.mem_cons_of_mem _ mem)
    have here := proper step (List.mem_cons_self ..)
    cases step with
    | other c =>
      refine ⟨rise, fall, ?_⟩
      simpa [List.filterMap_cons, segment, Segment.filament, rise?, fall?, Weave.shortfall] using sum
    | still m =>
      obtain ⟨e, real⟩ := fed m (List.mem_cons_self ..)
      refine ⟨List.forall_mem_cons.mpr ⟨⟨e, real⟩, rise⟩, fall, ?_⟩
      simp only [List.filterMap_cons, rise?, List.map_cons, List.sum_cons, segment, Segment.total_cons,
        Segment.filament, sum, Weave.shortfall, fall?]
      ring
    | ramped m t =>
      obtain ⟨e, real⟩ := fed m (List.mem_cons_self ..)
      obtain ⟨_, h, _, _, rfl⟩ := here
      have risen : m.extrusion * Exact.real h = .real (e * h) := by rw [real, Exact.real_mul]
      have fallen : m.extrusion * (1 - Exact.real h) = .real (e * (1 - h)) := by
        rw [real, Exact.one_eq, Exact.real_sub, Exact.real_mul]
      refine ⟨List.forall_mem_cons.mpr ⟨⟨_, risen⟩, rise⟩, List.forall_mem_cons.mpr ⟨⟨_, fallen⟩, fall⟩, ?_⟩
      simp only [List.filterMap_cons, rise?, List.map_cons, List.sum_cons, segment, Segment.total_cons,
        Segment.filament, sum, Weave.shortfall, fall?]
      rw [risen, fallen, real]
      simp only [Exact.toReal_real]
      ring

open Classical in
/-- A total is declared where extrusion is absolute and the count is off by what counts. -/
theorem Weave.declared_eq (m : Machine Exact) (total : Exact) {d : ℝ} (off : m.extrusion - total = .real d) :
    declared m total =
      if m.extrusionMode = .absolute ∧ ¬ |d| < slack then m.declareExtrusion (some total) else m := by
  simp only [declared, off, Exact.abs_real, extrusionTolerance_eq, Exact.real_lt]

namespace Woven

variable {tuning : Tuning Exact} {floor : Exact} {run : Run Exact} {segments : List (Segment Exact)}

/-- What the ending taper pushes. -/
noncomputable def shortfall (_ : Woven tuning floor run segments) : ℝ := Weave.shortfall (Weave.steps tuning segments)

/-- The count of filament that is due behind the section. -/
noncomputable def due (_ : Woven tuning floor run segments) : ℝ :=
  run.start.extrusion.toReal + Segment.total (Weave.taperSection tuning segments)

/-- What is pushed along the tail. -/
noncomputable def tailFilament (_ : Woven tuning floor run segments) : ℝ :=
  Segment.total ((Weave.cut tuning segments).tail.toList.map .move)

open Classical in
/-- How far the logical count is ahead where the rest of the loop is met: it is
    behind by the shortfall unless a total was declared. -/
noncomputable def headway (w : Woven tuning floor run segments) : ℝ :=
  if w.boundary.extrusionMode = .absolute ∧ ¬ |w.shortfall| < Weave.slack then 0 else -w.shortfall

/-- The covered lines lead to the machine behind the cut move, with nothing but idle lines between their moves. -/
theorem traced_boundary (w : Woven tuning floor run segments) :
    Traced run.start.physical.z run.start (run.commands.take (Weave.cut tuning segments).remainder)
        (segments.take (Weave.cut tuning segments).remainder) w.boundary ∧
      Segment.Plain (segments.take (Weave.cut tuning segments).remainder) := by
  obtain ⟨known, traced⟩ := Segment.traced_of_path w.path
  obtain ⟨_, front, _⟩ := traced.split (Weave.cut tuning segments).remainder
  cases w.replayed.symm.trans front.replay
  exact ⟨front, Weave.plain_taken w.usable (traced.placed known) w.plain⟩

private theorem fed_covered (w : Woven tuning floor run segments) (counted : run.Counted) :
    Segment.Fed (segments.take (Weave.cut tuning segments).remainder) ∧
      Segment.Fed (Weave.cut tuning segments).covered := by
  obtain ⟨known, traced⟩ := Segment.traced_of_path w.path
  obtain ⟨front, _⟩ := w.traced_boundary
  have fed := (front.counted counted.1 fun c mem => counted.2 c (List.mem_of_mem_take mem)).1
  exact ⟨fed, (Weave.refines_cut w.usable (traced.placed known)).fed fed⟩

private theorem fed_taper (w : Woven tuning floor run segments) (counted : run.Counted) :
    Segment.Fed (Weave.cut tuning segments).taper :=
  fun m mem => (w.fed_covered counted).2 m (List.mem_append_left _ mem)

theorem fed_section (w : Woven tuning floor run segments) (counted : run.Counted) :
    Segment.Fed (Weave.taperSection tuning segments) := by
  obtain ⟨known, traced⟩ := Segment.traced_of_path w.path
  exact (Weave.refines_taperSection w.usable (traced.placed known)).fed (w.fed_taper counted)

private theorem extrusion_boundary (w : Woven tuning floor run segments) (counted : run.Counted) :
    w.boundary.extrusion = .real (w.due + w.tailFilament) ∧ w.boundary.extrusionOffset = run.start.extrusionOffset := by
  obtain ⟨known, traced⟩ := Segment.traced_of_path w.path
  have placed := traced.placed known
  obtain ⟨front, plain⟩ := w.traced_boundary
  have grows := (front.counted counted.1 fun c mem => counted.2 c (List.mem_of_mem_take mem)).2 plain
  obtain ⟨fed, _⟩ := w.fed_covered counted
  refine ⟨?_, (front.pose plain).2.2.2⟩
  rw [grows, ← (Weave.refines_cut w.usable placed).total_eq fed, Cut.covered, Segment.total_append,
    ← (Weave.refines_taperSection w.usable placed).total_eq (w.fed_taper counted), due, tailFilament, add_assoc]

private theorem extrusion_risen (w : Woven tuning floor run segments) (counted : run.Counted) :
    w.risen.extrusion = .real (w.due - w.shortfall) ∧ w.risen.extrusionOffset = run.start.extrusionOffset := by
  have fed := w.fed_section counted
  rw [← Weave.segment_steps] at fed
  obtain ⟨rise, _, sum⟩ := Step.shares tuning.layerHeight floor w.proper fed
  refine ⟨?_, w.rises.framed.extrusionOffset⟩
  rw [w.rises.extrusion counted.1.1 rise, sum, Weave.segment_steps, due, shortfall, add_sub_assoc]

theorem total_eq (w : Woven tuning floor run segments) (counted : run.Counted) : w.total = .real w.due := by
  have boundary := (w.extrusion_boundary counted).1
  have fed := (w.fed_covered counted).2
  rw [total, Weave.resumption, boundary, tailFilament]
  rw [Cut.covered] at fed
  cases tail : (Weave.cut tuning segments).tail with
  | none => simp
  | some move =>
    obtain ⟨e, real⟩ := fed move (List.mem_append_right _ (by simp [tail]))
    simp [real, Segment.filament]

private theorem share_tail (w : Woven tuning floor run segments) (counted : run.Counted) :
    ∀ s ∈ ((Weave.cut tuning segments).tail.toList.map Step.still).filterMap (Weave.bridge? floor),
      s.share.IsReal := by
  have fed := (w.fed_covered counted).2
  rw [Cut.covered] at fed
  intro s mem
  cases tail : (Weave.cut tuning segments).tail with
  | none => rw [tail] at mem; cases mem
  | some move =>
    rw [tail] at mem fed
    rw [List.mem_singleton.mp mem]
    exact fed move (List.mem_append_right _ (List.mem_singleton_self _))

private theorem extrusion_met (w : Woven tuning floor run segments) (counted : run.Counted)
    (count : (Weave.declared w.risen w.total).extrusion.IsReal) :
    w.met.extrusion = .real ((Weave.declared w.risen w.total).extrusion.toReal + w.tailFilament) := by
  have bridges := w.bridges
  rw [← total] at bridges
  rw [bridges.extrusion count (w.share_tail counted), tailFilament]
  cases (Weave.cut tuning segments).tail <;> rfl

theorem pushes_front (w : Woven tuning floor run segments) (counted : run.Counted) :
    List.Forall₂ (fun t s => t.Draws s ∧ t.pushed = s.share)
      (w.starting.filter Transition.isLinear ++ w.bridging.filter Transition.isLinear)
      ((Weave.steps tuning segments).filterMap (Step.rise? tuning.layerHeight floor) ++
        ((Weave.cut tuning segments).tail.toList.map Step.still).filterMap (Weave.bridge? floor)) := by
  obtain ⟨risen, risenOffset⟩ := w.extrusion_risen counted
  have fed := w.fed_section counted
  rw [← Weave.segment_steps] at fed
  have rise := (Step.shares tuning.layerHeight floor w.proper fed).1
  have bridges := w.bridges
  rw [← total] at bridges
  have declared := Weave.counted_declared (m := w.risen) ⟨⟨_, risen⟩, by rw [risenOffset]; exact counted.1.2⟩
    ⟨_, w.total_eq counted⟩
  exact List.rel_append (w.rises.pushes counted.1 rise) (bridges.pushes declared (w.share_tail counted))

theorem extrusionMode_risen (w : Woven tuning floor run segments) :
    w.risen.extrusionMode = w.boundary.extrusionMode := by
  have along := congrArg Pose.extrusionMode w.bridges.pose
  rw [Weave.trace_bridge, Pose.extrusionMode_along, Pose.mode?_moves] at along
  exact (Weave.declared_frame ..).2.2.2.1.symm.trans (along.symm.trans w.level.extrusionMode)

/-- Where the rest of the loop is met, the ending taper is still to be pushed. -/
theorem ahead_met (w : Woven tuning floor run segments) (counted : run.Counted) :
    Machine.Ahead .filament ⟨w.headway, -w.shortfall - w.headway⟩ w.boundary w.met := by
  obtain ⟨boundary, boundaryOffset⟩ := w.extrusion_boundary counted
  obtain ⟨risen, risenOffset⟩ := w.extrusion_risen counted
  have total := w.total_eq counted
  obtain ⟨o, start⟩ := counted.1.2
  rw [start] at boundaryOffset risenOffset
  have lacking : w.risen.extrusion - w.total = .real (-w.shortfall) := by
    rw [risen, total, Exact.real_sub, sub_sub_cancel_left]
  have metOffset : w.met.extrusionOffset = (Weave.declared w.risen w.total).extrusionOffset :=
    w.bridges.framed.extrusionOffset
  have declared := Weave.declared_eq w.risen w.total lacking
  rw [w.extrusionMode_risen, abs_neg] at declared
  refine ⟨w.level.extrusionMode, ?_⟩
  rw [Machine.gauge, Machine.gauge, boundary, boundaryOffset, metOffset]
  by_cases renamed : w.boundary.extrusionMode = .absolute ∧ ¬ |w.shortfall| < Weave.slack
  · rw [if_pos renamed] at declared
    have headway : w.headway = 0 := if_pos renamed
    have count : (Weave.declared w.risen w.total).extrusion = .real w.due := by rw [declared]; exact total
    have offset : (Weave.declared w.risen w.total).extrusionOffset = .real (o - w.shortfall) := by
      rw [declared]
      show w.risen.extrusionOffset - (w.total - w.risen.extrusion) = _
      rw [risenOffset, total, risen, Exact.real_sub, Exact.real_sub, sub_sub_cancel]
    rw [w.extrusion_met counted ⟨_, count⟩, offset, count, headway]
    simp only [Exact.toReal_real, Gauge.ahead, Exact.real_add, sub_zero, add_zero]
    rw [sub_eq_add_neg]
  · rw [if_neg renamed] at declared
    have headway : w.headway = -w.shortfall := if_neg renamed
    have count : (Weave.declared w.risen w.total).extrusion = .real (w.due - w.shortfall) := by rw [declared]; exact risen
    rw [w.extrusion_met counted ⟨_, count⟩, count, declared, risenOffset, headway]
    simp only [Exact.toReal_real, Gauge.ahead, Exact.real_add, sub_self, add_zero, Gauge.mk.injEq, and_true,
      Exact.real.injEq]
    ring

end Woven

end Seam
