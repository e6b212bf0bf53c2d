import Seam.Proofs.Admitted
import Seam.Proofs.Bare
import Seam.Proofs.Slices

/-!
Which runs are replaced. Whether a run can be tapered is found out on the way: by its
ends, by its path, and by a line that the ending taper would meet when most of the
tapered form is there already. It is told beforehand by the way of the machine through
the run (`Run.Eligible`): the run is a path exactly if every line leaves the machine
followed (`Segment.path?_eq_some_iff`), the line that the ending taper stops at stands
before the boundary of the overlap (`Cut.resume_plain_iff`), and the verdict on a run is
to taper it exactly if it is eligible (`Pass.isScarfed_iff_eligible`).
-/
namespace Seam

namespace Transition

variable {α : Type} [Scalar α]

/-- How far the line takes the head. -/
def way (t : Transition α) : α := t.before.physical.distance t.after.physical

/-- How far the straight lines take the head, added up behind what was travelled before. -/
def travel (travelled : α) (ts : List (Transition α)) : α :=
  ((ts.filter isLinear).map way).foldl (· + ·) travelled

/-- The line is no arc and homes nothing, and behind it coordinates are positions, the
    head is known to be somewhere, and a straight line has left it in the layer. -/
structure Followed (height : α) (t : Transition α) : Prop where
  absolute : t.after.positioning = .absolute
  known : t.after.physicalKnown = true
  straight : t.line.code?.any Code.isArc = false
  unhomed : t.line.code? ≠ some .home
  level : t.isLinear = true → ¬ Segment.layerTolerance < Scalar.abs (t.after.physical.z - height)

/-- The straight line is a way on which the length is reached. -/
structure Reaches (length travelled : α) (t : Transition α) : Prop where
  linear : t.isLinear = true
  long : Segment.leastLength < t.way
  far : length ≤ travelled + t.way

/-- No line changes what coordinates mean unless the length is reached before. -/
def Unaltered (length travelled : α) (ts : List (Transition α)) : Prop :=
  ∀ front t back, ts = front ++ t :: back → t.line.altersFrame = true →
    ∃ early u late, front = early ++ u :: late ∧ u.Reaches length (travel travelled early)

/-- What the line is on a path. -/
def segment (t : Transition α) : Segment α :=
  if t.isLinear then
    .move ⟨t.before.physical, t.after.physical, t.after.extrusion - t.before.extrusion, t.after.feedRate⟩
  else .other t.line

end Transition

/-- The run with the given transitions is a loop that can be tapered. -/
structure Run.Eligible {α : Type} [Scalar α] (tuning : Tuning α) (r : Run α) (ts : List (Transition α)) : Prop where
  start_known : r.start.physicalKnown = true
  finish_known : r.finish.physicalKnown = true
  closed : r.start.physical.distance r.finish.physical < tuning.loopTolerance
  followed : ∀ t ∈ ts, t.Followed r.start.physical.z
  long : ¬ Transition.travel 0 ts < tuning.taperResolution
  unaltered : Transition.Unaltered (Segment.effectiveOverlap tuning.overlap (Transition.travel 0 ts)) 0 ts

namespace Command

variable {α : Type} {c : Command α}

theorem isMotion_eq_false_iff : c.isMotion = false ↔ c.code?.any Code.isArc = false ∧ c.isLinear = false := by
  unfold isMotion isLinear
  cases c.code? with
  | none => decide
  | some code => cases code <;> decide

theorem unlike_of_isLinear (linear : c.isLinear = true) :
    c.code?.any Code.isArc = false ∧ c.code? ≠ some .home ∧ c.altersFrame = false := by
  unfold isLinear at linear
  unfold altersFrame
  cases known : c.code? with
  | none => decide
  | some code =>
    rw [known] at linear
    cases code <;> first | decide | cases linear

end Command

variable {α : Type} [Scalar α]

namespace Transition

variable {t : Transition α} {ts : List (Transition α)} {height travelled length : α}

theorem segment_of_isLinear (linear : t.isLinear = true) :
    t.segment = .move ⟨t.before.physical, t.after.physical, t.after.extrusion - t.before.extrusion, t.after.feedRate⟩ :=
  if_pos linear

theorem segment_of_not_isLinear (other : t.isLinear = false) : t.segment = .other t.line :=
  if_neg (Bool.eq_false_iff.mp other)

@[simp] theorem travel_nil : travel travelled ([] : List (Transition α)) = travelled := rfl

private theorem travel_cons_of_isLinear (linear : t.isLinear = true) :
    travel travelled (t :: ts) = travel (travelled + t.way) ts := by
  simp [travel, linear]

private theorem travel_cons_of_not_isLinear (other : t.isLinear = false) :
    travel travelled (t :: ts) = travel travelled ts := by
  simp [travel, other]

theorem ofStep?_eq_some_iff {s : Segment α} :
    Segment.ofStep? height t.before t.after t.line = some s ↔ t.Followed height ∧ s = t.segment := by
  rw [Segment.ofStep?_eq_some_iff]
  constructor
  · rintro ⟨absolute, known, ⟨linear, level, rfl⟩ | ⟨still, unhomed, rfl⟩⟩
    · obtain ⟨straight, unhomed, _⟩ := Command.unlike_of_isLinear linear
      exact ⟨⟨absolute, known, straight, unhomed, fun _ => level⟩, (segment_of_isLinear linear).symm⟩
    · obtain ⟨straight, other⟩ := Command.isMotion_eq_false_iff.mp still
      refine ⟨⟨absolute, known, straight, unhomed, fun linear => ?_⟩, (segment_of_not_isLinear other).symm⟩
      cases other.symm.trans linear
  · rintro ⟨followed, rfl⟩
    refine ⟨followed.absolute, followed.known, ?_⟩
    cases linear : t.isLinear with
    | true => exact .inl ⟨linear, followed.level linear, segment_of_isLinear linear⟩
    | false =>
      have still := Command.isMotion_eq_false_iff.mpr ⟨followed.straight, linear⟩
      exact .inr ⟨still, followed.unhomed, segment_of_not_isLinear linear⟩

end Transition

namespace Segment

variable {m last : Machine α} {ts : List (Transition α)} {segments : List (Segment α)} {height : α}

private theorem trace_eq_some_iff (passes : Passage m ts last) :
    trace height m (ts.map (·.line)) = .ok (some segments) ↔
      (∀ t ∈ ts, t.Followed height) ∧ segments = ts.map Transition.segment := by
  induction passes generalizing segments with
  | nil =>
    rw [List.map_nil, trace]
    simp [eq_comm]
  | @cons m next _ c ts stepped _ ih =>
    rw [List.map_cons, trace_cons_iff, List.forall_mem_cons, List.map_cons]
    constructor
    · rintro ⟨next', s, rest, stepped', drawn, traced, rfl⟩
      cases stepped.symm.trans stepped'
      obtain ⟨here, rfl⟩ := Transition.ofStep?_eq_some_iff (t := ⟨m, c, next⟩).mp drawn
      obtain ⟨others, rfl⟩ := ih.mp traced
      exact ⟨⟨here, others⟩, rfl⟩
    · rintro ⟨⟨here, others⟩, rfl⟩
      exact ⟨next, _, _, stepped, Transition.ofStep?_eq_some_iff (t := ⟨m, c, next⟩).mpr ⟨here, rfl⟩,
        ih.mpr ⟨others, rfl⟩, rfl⟩

/-- The lines are a path exactly if the machine is followed along all of them. -/
theorem path?_eq_some_iff (passes : Passage m ts last) :
    path? m (ts.map (·.line)) = .ok (some segments) ↔
      m.physicalKnown = true ∧ (∀ t ∈ ts, t.Followed m.physical.z) ∧ segments = ts.map Transition.segment := by
  unfold path?
  split
  case isTrue known => rw [trace_eq_some_iff passes, and_iff_right known]
  case isFalse unknown => simp [unknown]

/-- The length of a path is that of the way along its straight lines. -/
private theorem pathLength_eq_travel [Scalar.Lawful α] (ts : List (Transition α)) :
    pathLength (ts.map Transition.segment) = Transition.travel 0 ts := by
  -- from the end of the path, as a sum is added up from its start
  induction ts using List.reverseRecOn with
  | nil => rfl
  | append_singleton ts t ih =>
    have last : pathLength ((ts ++ [t]).map Transition.segment) =
        pathLength (ts.map Transition.segment) + t.segment.length := by
      simp [pathLength, Scalar.sum, List.foldl_append]
    rw [last]
    cases linear : t.isLinear with
    | true =>
      rw [ih, Transition.segment_of_isLinear linear]
      simp [Transition.travel, linear, List.foldl_append, length, Move.length, Transition.way]
    | false =>
      have roots : ∀ x ∈ (ts.map Transition.segment).map length, x = 0 ∨ ∃ y, x = Scalar.sqrt y := by
        intro x mem
        obtain ⟨s, _, rfl⟩ := List.mem_map.mp mem
        exact s.length_root
      have same : Transition.travel 0 (ts ++ [t]) = Transition.travel 0 ts := by simp [Transition.travel, linear]
      rw [same, ← ih, Transition.segment_of_not_isLinear linear]
      exact Scalar.Lawful.sum_add_zero _ roots

end Segment

namespace Transition

variable {t : Transition α} {ts : List (Transition α)} {travelled length : α}

private theorem unaltered_nil : Unaltered length travelled ([] : List (Transition α)) := by
  intro front t back split
  cases front <;> cases split

/-- Behind the line on which the length is reached everything may change. -/
private theorem unaltered_cons_of_reaches (reaches : t.Reaches length travelled) : Unaltered length travelled (t :: ts) := by
  intro front u back split alters
  cases front with
  | nil =>
    cases split
    obtain ⟨_, _, plain⟩ := Command.unlike_of_isLinear reaches.linear
    cases plain.symm.trans alters
  | cons u' front =>
    cases split
    exact ⟨[], t, front, rfl, reaches⟩

private theorem unaltered_cons_iff (short : ¬ t.Reaches length travelled) :
    Unaltered length travelled (t :: ts) ↔
      t.line.altersFrame = false ∧ Unaltered length (travel travelled [t]) ts := by
  have behind (early : List (Transition α)) : travel travelled (t :: early) = travel (travel travelled [t]) early := by
    cases linear : t.isLinear <;> simp [travel, linear]
  constructor
  · intro unaltered
    refine ⟨?_, fun front u back split alters => ?_⟩
    · by_contra alters
      obtain ⟨early, _, _, none, _⟩ := unaltered [] t ts rfl (Bool.not_eq_false _ |>.mp alters)
      cases early <;> cases none
    · have later : t :: ts = t :: front ++ u :: back := by rw [split, List.cons_append]
      obtain ⟨early, v, late, reached, reaches⟩ := unaltered (t :: front) u back later alters
      cases early with
      | nil => cases reached; exact absurd reaches short
      | cons t' early =>
        cases reached
        exact ⟨early, v, late, rfl, behind early ▸ reaches⟩
  · rintro ⟨plain, unaltered⟩ front u back split alters
    cases front with
    | nil => cases split; cases plain.symm.trans alters
    | cons t' front =>
      cases split
      obtain ⟨early, v, late, rfl, reaches⟩ := unaltered front u back rfl alters
      exact ⟨t :: early, v, late, rfl, (behind early).symm ▸ reaches⟩

end Transition

/-- No line of the section changes what coordinates mean exactly if none stands before the boundary. -/
theorem Cut.resume_plain_iff {length travelled : α} (ts : List (Transition α)) :
    (∀ c, .other c ∈ (resume length travelled (ts.map Transition.segment)).taper → c.altersFrame = false) ↔
      Transition.Unaltered length travelled ts := by
  induction ts generalizing travelled with
  | nil => exact iff_of_true (fun _ mem => by cases mem) Transition.unaltered_nil
  | cons t ts ih =>
    rw [List.map_cons]
    cases linear : t.isLinear with
    | false =>
      have short : ¬ t.Reaches length travelled := fun reaches => by cases linear.symm.trans reaches.linear
      rw [Transition.unaltered_cons_iff short, Transition.segment_of_not_isLinear linear, resume,
        Transition.travel_cons_of_not_isLinear linear, Transition.travel_nil, ← ih]
      simp [after]
    | true =>
      rw [Transition.segment_of_isLinear linear, resume]
      split
      case isTrue reached =>
        refine iff_of_true (fun c mem => ?_) (Transition.unaltered_cons_of_reaches ⟨linear, reached.1, reached.2⟩)
        simp [inside] at mem
      case isFalse further =>
        have short : ¬ t.Reaches length travelled := fun reaches => further ⟨reaches.long, reaches.far⟩
        obtain ⟨_, _, plain⟩ := Command.unlike_of_isLinear linear
        rw [Transition.unaltered_cons_iff short, and_iff_right plain, Transition.travel_cons_of_isLinear linear,
          Transition.travel_nil, ← ih]
        simp [after, Move.length, Transition.way]

theorem Segment.other_mem_resample_iff {resolution : α} {segments : List (Segment α)} {c : Command α} :
    .other c ∈ resample resolution segments ↔ .other c ∈ segments := by
  rw [resample, List.mem_flatMap]
  constructor
  · rintro ⟨s, mem, among⟩
    cases s with
    | move m => simp [steps] at among
    | other c' =>
      rw [steps, List.mem_singleton] at among
      exact among ▸ mem
  · intro mem
    exact ⟨_, mem, List.mem_singleton_self _⟩

namespace Weave

variable {tuning : Tuning α} {segments : List (Segment α)} {floor : α} {markers : Bool} {run : Run α}

theorem alteration?_eq_none_iff :
    (∀ step ∈ steps tuning segments, step.alteration? = none) ↔
      ∀ c, .other c ∈ (cut tuning segments).taper → c.altersFrame = false := by
  constructor
  · intro unaltered c mem
    have resampled : .other c ∈ taperSection tuning segments := Segment.other_mem_resample_iff.mpr mem
    rw [← segment_steps] at resampled
    obtain ⟨step, mem, same⟩ := List.mem_map.mp resampled
    have kept := unaltered step mem
    cases step with
    | other c' => cases same; simpa [Step.alteration?] using kept
    | still => cases same
    | ramped => cases same
  · intro plain step mem
    have among := segment_mem_taperSection mem
    cases step with
    | other c =>
      have kept := plain c (Segment.other_mem_resample_iff.mp among)
      simp [Step.alteration?, kept]
    | still => rfl
    | ramped => rfl

/-- No step is an alteration exactly if the way is unaltered before the overlap is reached. -/
private theorem unaltered_iff [Scalar.Lawful α] {ts : List (Transition α)} :
    (∀ step ∈ steps tuning (ts.map Transition.segment), step.alteration? = none) ↔
      Transition.Unaltered (Segment.effectiveOverlap tuning.overlap (Transition.travel 0 ts)) 0 ts := by
  rw [alteration?_eq_none_iff, ← Segment.pathLength_eq_travel]
  exact Cut.resume_plain_iff ts

/-- A loop that can be tapered or not is tapered if no step is an alteration. -/
theorem exists_tapered_iff {outcome : Outcome α} (woven : weave tuning floor markers run segments = .ok outcome) :
    (∃ commands, outcome = .tapered commands) ↔ ∀ step ∈ steps tuning segments, step.alteration? = none := by
  constructor
  · rintro ⟨commands, rfl⟩
    obtain ⟨_, _, _, _, _, _, _, unaltered, _⟩ := weave_eq_tapered_iff.mp woven
    exact unaltered
  · intro unaltered
    rw [weave_eq, List.findSome?_eq_none_iff.mpr unaltered] at woven
    simp only [Except.bind_eq_ok_iff, pure, Except.pure, Except.ok.injEq] at woven
    obtain ⟨_, _, _, _, _, _, _, _, _, _, rfl⟩ := woven
    exact ⟨_, rfl⟩

end Weave

/-- The run that a block stands for, with the machine before and after each of its lines. -/
private theorem Slice.exists_passage {p : Pass α} {floor : α} {m : Machine α} {line : ℕ} {b : Block α}
    {rest : List (Command α)} (slice : Slice p floor line m b rest) (isRun : b.isRun = true) :
    ∃ run ts verdict, run.start = m ∧ Run.extract m (b.source ++ rest) = .ok run ∧ run.commands = b.source ∧
      Passage run.start ts run.finish ∧ ts.map (·.line) = run.commands ∧ p.judge floor run = .ok verdict ∧
        b.isReplaced = verdict.isScarfed := by
  cases slice with
  | single => cases isRun
  | @run r _ _ _ verdict _ _ longest judged =>
    obtain ⟨ts, passes, lines⟩ := Passage.of_replay r.replays
    refine ⟨r, ts, verdict, rfl, Run.extract_eq_ok_iff.mpr ⟨rfl, longest⟩, rfl, passes, lines, judged, ?_⟩
    cases verdict <;> rfl

private theorem Run.isClosed_iff {r : Run α} {tolerance : α} :
    r.isClosed tolerance = true ↔ r.start.physicalKnown = true ∧ r.finish.physicalKnown = true ∧
      r.start.physical.distance r.finish.physical < tolerance := by
  rw [Run.isClosed, Bool.and_eq_true, Bool.and_eq_true, decide_eq_true_iff, and_assoc]

namespace Pass

variable {p : Pass α} {floor : α}

theorem isScarfed_iff_eligible [Scalar.Lawful α] {r : Run α} {ts : List (Transition α)} {verdict : Verdict α}
    (passes : Passage r.start ts r.finish) (lines : ts.map (·.line) = r.commands)
    (judged : p.judge floor r = .ok verdict) : verdict.isScarfed = true ↔ r.Eligible p.tuning ts := by
  constructor
  · intro scarfed
    cases verdict with
    | tapered commands =>
      obtain ⟨closed, segments, path, long, woven⟩ := judge_eq_tapered_iff.mp judged
      rw [← lines, Segment.path?_eq_some_iff passes] at path
      obtain ⟨_, followed, rfl⟩ := path
      obtain ⟨start_known, finish_known, near⟩ := Run.isClosed_iff.mp closed
      have unaltered := Weave.unaltered_iff.mp ((Weave.exists_tapered_iff woven).mp ⟨commands, rfl⟩)
      rw [Segment.pathLength_eq_travel] at long
      exact ⟨start_known, finish_known, near, followed, long, unaltered⟩
    | _ => cases scarfed
  · intro eligible
    have closed := Run.isClosed_iff.mpr ⟨eligible.start_known, eligible.finish_known, eligible.closed⟩
    have path := (Segment.path?_eq_some_iff passes).mpr ⟨eligible.start_known, eligible.followed, rfl⟩
    have long := eligible.long
    rw [← Segment.pathLength_eq_travel] at long
    rw [judge, closed, ← lines, path] at judged
    simp only [Bool.not_true, Bool.false_eq_true, ↓reduceIte, long, Except.bind_eq_ok_iff, Except.ok.injEq,
      exists_eq_left'] at judged
    obtain ⟨outcome, woven, settled⟩ := judged
    obtain ⟨commands, rfl⟩ := (Weave.exists_tapered_iff woven).mpr (Weave.unaltered_iff.mpr eligible.unaltered)
    cases settled
    rfl

/-- Of the lines that change what coordinates mean, a loop in an admitted program has only those that ask for
    positions or declare one. -/
private theorem altersFrame_of_followed {t : Transition α} {height : α} (admitted : t.line.Admitted)
    (followed : t.Followed height) (stepped : t.before.after t.line = .ok t.after) (alters : t.line.altersFrame = true) :
    t.line.code? = some .absolutePositioning ∨ t.line.code? = some .setPosition := by
  have absolute := followed.absolute
  have unhomed := followed.unhomed
  have mode := Machine.after_mode stepped (.axis .x)
  generalize t.line = c at admitted alters unhomed mode ⊢
  cases c with
  | comment => cases alters
  | verbatim => cases alters
  | instruction i =>
    obtain ⟨code, words, comment⟩ := i
    cases code
    case absolutePositioning => exact .inl rfl
    case setPosition => exact .inr rfl
    case home => exact absurd rfl unhomed
    case resetPosition => exact absurd (Admission.Offends.reset words comment) (admitted 0 _)
    case relativePositioning => cases absolute.symm.trans mode
    all_goals cases alters

/-- Every run of an accepted program is replaced by its tapered form exactly if the way of the machine through it is
    that of an eligible loop, and is written as it stands otherwise. -/
theorem eligible_of_rewrite [Scalar.Lawful α] {p : Pass α} {commands : List (Command α)} {rewritten : Rewritten α}
    (written : p.rewrite commands = .ok rewritten) :
    ∃ blocks : List (Block α), p.blocks rewritten.report.floor commands = .ok blocks ∧
      blocks.flatMap Block.source = commands ∧ blocks.flatMap Block.emitted = rewritten.commands ∧
      ∀ front b back, blocks = front ++ b :: back → b.isRun = true →
        ∃ run ts, Machine.powerOn.replay (front.flatMap Block.emitted) = .ok run.start ∧
          Run.extract run.start (b.source ++ back.flatMap Block.source) = .ok run ∧ run.commands = b.source ∧
          Passage run.start ts run.finish ∧ ts.map (·.line) = run.commands ∧
          (b.isReplaced = true ↔ run.Eligible p.tuning ts) ∧
          (b.isReplaced = true → ∃ segments, Segment.path? run.start run.commands = .ok (some segments) ∧
            Weave.weave p.tuning rewritten.report.floor p.markers run segments = .ok (.tapered b.emitted)) ∧
          (b.isReplaced = false → b.emitted = run.commands) ∧
          ∀ t ∈ ts, t.Followed run.start.physical.z → t.line.altersFrame = true →
            t.line.code? = some .absolutePositioning ∨ t.line.code? = some .setPosition := by
  obtain ⟨_, admitted, floor, _, blocks, cut, rfl⟩ := rewrite_eq_ok_iff.mp written
  rw [Admission.check_eq_ok_iff] at admitted
  obtain ⟨last, walk⟩ := blocks_eq_ok_iff.mp cut
  refine ⟨blocks, cut, walk.source, rfl, fun front b back split isRun => ?_⟩
  obtain ⟨m, reached, slice⟩ := walk.slice split
  obtain ⟨run, ts, verdict, rfl, extracted, taken, passes, lines, judged, scarfed⟩ := slice.exists_passage isRun
  refine ⟨run, ts, reached, extracted, taken, passes, lines, ?_, fun replaced => ?_, fun kept => ?_,
    fun t mem followed => ?_⟩
  · rw [scarfed]
    exact isScarfed_iff_eligible passes lines judged
  · obtain ⟨run', segments, start, commands', _, path, woven⟩ := slice.tapered replaced
    obtain rfl : run' = run := Run.eq_of_start start (commands'.trans taken.symm)
    exact ⟨segments, taken ▸ path, woven⟩
  · rw [taken]
    exact Block.emitted_of_isUntouched (Block.isUntouched_of_not_isReplaced kept)
  · refine altersFrame_of_followed (admitted _ ?_) followed (passes.step_of_mem mem)
    rw [← walk.source, split, List.flatMap_append, List.flatMap_cons, ← taken, ← lines]
    exact List.mem_append_right _ (List.mem_append_left _ (List.mem_map_of_mem mem))

/-- The loop of a shuttle is eligible, and is replaced. -/
theorem eligible_of_shuttle :
    ∃ rewritten, (⟨Lane.tuning 1, true⟩ : Pass Exact).rewrite [Lane.home, Lane.draw 3 3, Lane.draw 0 3, Lane.lift 1] =
        .ok rewritten ∧
      ∃ (blocks : List (Block Exact)) (b : Block Exact) (run : Run Exact) (ts : List (Transition Exact)),
        blocks.flatMap Block.emitted = rewritten.commands ∧ b ∈ blocks ∧ run.commands = b.source ∧
          run.commands = [Lane.draw 3 3, Lane.draw 0 3] ∧ Passage run.start ts run.finish ∧
            ts.map (·.line) = run.commands ∧ b.isReplaced = true ∧ run.Eligible (Lane.tuning 1) ts := by
  obtain ⟨commands, _, lowest, cut, rewritten, written⟩ :=
    Lane.rewrite_shuttle (a := 3) (z := 1) (by norm_num) three_pos three_pos zero_le_one true
  obtain ⟨blocks, cut', _, emitted, runs⟩ := eligible_of_rewrite written
  obtain ⟨_, _, floor, lowest', _, _, rfl⟩ := rewrite_eq_ok_iff.mp written
  cases lowest.symm.trans lowest'
  cases cut.symm.trans cut'
  obtain ⟨run, ts, _, _, taken, passes, lines, replaced, _⟩ :=
    runs [.single Lane.home] _ [.single (Lane.lift 1)] rfl rfl
  exact ⟨_, written, _, _, run, ts, emitted, List.mem_cons_of_mem _ List.mem_cons_self, taken, taken, passes, lines,
    rfl, replaced.mp rfl⟩

end Pass

end Seam
