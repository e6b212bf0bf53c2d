import Seam.Proofs.Filament

/-!
Loops on a lane. A machine that keeps to the X axis of its bed is a handful of
reals (`Lane.spot`), and what it does is arithmetic on them. Two loops on the lane
are tapered: one that goes out and back (`Lane.weave_shuttle`), and one that goes
out under totals of extrusion and back under amounts (`Lane.weave_mixed`).
-/
namespace Seam.Lane

/-- A point of the lane, so far along it and so high above it. -/
noncomputable def point (x z : ℝ) : Point Exact := ⟨.real x, .real 0, .real z⟩

/-- The machine at a point of the lane, with the count of filament and its offset. -/
noncomputable def spot (mode : Mode) (x z e o : ℝ) (extruded : Bool) : Machine Exact where
  positioning := .absolute
  extrusionMode := mode
  position := point x z
  offset := point 0 0
  extrusion := .real e
  extrusionOffset := .real o
  feedRate := none
  extruded := extruded

/-- The move along the lane that pushes an amount of filament. -/
noncomputable def move (a b d : ℝ) : Move Exact := ⟨point a 0, point b 0, .real d, none⟩

def home : Command Exact := .ofWords .home ⟨[]⟩

/-- The line that moves along the lane and gives a number for the filament. -/
noncomputable def draw (x e : ℝ) : Command Exact := .ofWords .linearMove ⟨[('X', .real x), ('E', .real e)]⟩

noncomputable def lift (z : ℝ) : Command Exact := .ofWords .linearMove ⟨[('Z', .real z)]⟩

def switch : Mode → Command Exact
  | .absolute => .ofWords .absoluteExtrusion ⟨[]⟩
  | .relative => .ofWords .relativeExtrusion ⟨[]⟩

/-- The count behind a line that gives a number for the filament. -/
noncomputable def count : Mode → ℝ → ℝ → ℝ
  | .absolute, _, number => number
  | .relative, e, number => e + number

section
variable {mode : Mode} {x z e o : ℝ} {extruded : Bool}

theorem physical_spot : (spot mode x z e o extruded).physical = point x z := by
  show Point.mk _ _ _ = _
  simp [spot, point]

theorem physicalKnown_spot : (spot mode x z e o extruded).physicalKnown = true := by
  rw [Machine.physicalKnown, physical_spot]
  rfl

theorem after_home : Machine.powerOn.after home = .ok (spot .relative 0 0 0 0 false) := by
  simp [Machine.powerOn, Machine.after, Machine.step, home, Command.ofWords, Words.contains, Words.get?, Machine.home,
    Words.hasAxis, Axis.all, Point.ofFn, spot, point]

theorem after_draw (x' : ℝ) {number e' : ℝ} {extrudes : Bool} (counts : count mode e number = e')
    (grows : e < e' ↔ extrudes = true) :
    (spot mode x z e o extruded).after (draw x' number) = .ok (spot mode x' z e' o extrudes) := by
  subst counts
  have words : ∀ w : Words Exact, w = ⟨[('X', .real x'), ('E', .real number)]⟩ → w.get? 'E' = some (.real number) ∧
      w.get? 'F' = none ∧ w.axis? .x = some (.real x') ∧ w.axis? .y = none ∧ w.axis? .z = none := by
    rintro w rfl
    exact ⟨rfl, rfl, rfl, rfl, rfl⟩
  cases mode <;>
    simp_all [Machine.after, Machine.step, draw, Command.ofWords, spot, Machine.move, Point.ofFn, Machine.target,
      Machine.extrusionTarget, Point.get, point, count]

theorem after_lift (z' : ℝ) : (spot mode x z e o extruded).after (lift z') = .ok (spot mode x z' e o false) := by
  have words : ∀ w : Words Exact, w = ⟨[('Z', .real z')]⟩ → w.get? 'E' = none ∧ w.get? 'F' = none ∧
      w.axis? .x = none ∧ w.axis? .y = none ∧ w.axis? .z = some (.real z') := by
    rintro w rfl
    exact ⟨rfl, rfl, rfl, rfl, rfl⟩
  cases mode <;>
    simp [Machine.after, Machine.step, lift, Command.ofWords, spot, Machine.move, Point.ofFn, Machine.target,
      Machine.extrusionTarget, words, Point.get, point]

theorem pushed_spot {mode' : Mode} {x' z' e' o' : ℝ} {extruded' : Bool} (c : Command Exact) :
    Transition.pushed ⟨spot mode x z e o extruded, c, spot mode' x' z' e' o' extruded'⟩ = .real (e' + o' - (e + o)) := by
  rw [Transition.pushed, Machine.physicalExtrusion, Machine.physicalExtrusion, ← Exact.real_sub]
  rfl

theorem wouldExtrude_draw (x' : ℝ) {number e' : ℝ} {extrudes : Bool} (counts : count mode e number = e')
    (grows : e < e' ↔ extrudes = true) : (spot mode x z e o extruded).wouldExtrude (draw x' number) = .ok extrudes := by
  rw [Machine.wouldExtrude, if_pos (by rfl), after_draw x' counts grows]
  rfl

theorem wouldExtrude_lift (z' : ℝ) : (spot mode x z e o extruded).wouldExtrude (lift z') = .ok false := by
  rw [Machine.wouldExtrude, if_pos (by rfl), after_lift]
  rfl

theorem after_switch (mode' : Mode) :
    (spot mode x z e o extruded).after (switch mode') = .ok (spot mode' x z e o extruded) := by
  cases mode' <;> rfl

private theorem after_moveTo (x' z' d : ℝ) (withHeight : Bool) {e' : ℝ} {extrudes : Bool} (counts : e + d = e')
    (grows : 0 < d ↔ extrudes = true) :
    (spot mode x z e o extruded).after
        (Weave.moveTo (spot mode x z e o extruded) (point x' z') (.real d) none withHeight) =
      .ok (spot mode x' (if withHeight then z' else z) e' o extrudes) := by
  subst counts
  have logical : (spot mode x z e o extruded).toLogical (point x' z') = point x' z' := by
    show Point.mk _ _ _ = _
    simp [spot, point]
  have words (v : Exact) (withHeight : Bool) : ∀ w : Words Exact, w = ⟨[('X', .real x'), ('Y', .real 0)] ++
        (if withHeight then [('Z', .real z')] else []) ++ [('E', v)]⟩ →
      w.get? 'E' = some v ∧ w.get? 'F' = none ∧ w.axis? .x = some (.real x') ∧ w.axis? .y = some (.real 0) ∧
        w.axis? .z = if withHeight then some (.real z') else none := by
    rintro w rfl
    cases withHeight <;> exact ⟨rfl, rfl, rfl, rfl, rfl⟩
  have line : Weave.moveTo (spot mode x z e o extruded) (point x' z') (.real d) none withHeight =
      .ofWords .linearMove ⟨[('X', .real x'), ('Y', .real 0)] ++ (if withHeight then [('Z', .real z')] else []) ++
        [('E', match mode with | .relative => .real d | .absolute => .real (e + d))]⟩ := by
    unfold Weave.moveTo
    rw [logical]
    cases mode <;> rfl
  rw [line]
  cases mode <;> cases withHeight <;>
    simp_all [Machine.after, Machine.step, Command.ofWords, Machine.move, Point.ofFn, Machine.target,
      Machine.extrusionTarget, Point.get, point, spot]

private theorem declared_spot {total o' : ℝ} (apart : ¬ |e - total| < Weave.slack) (moved : o - (total - e) = o') :
    Weave.declared (spot .absolute x z e o extruded) (.real total) = spot .absolute x z total o' extruded := by
  subst moved
  have off : (spot .absolute x z e o extruded).extrusion - .real total = .real (e - total) := Exact.real_sub ..
  rw [Weave.declared_eq _ _ off, if_pos ⟨rfl, apart⟩]
  simp [Machine.declareExtrusion, spot]

private theorem declared_relative (total : Exact) :
    Weave.declared (spot .relative x z e o extruded) total = spot .relative x z e o extruded :=
  if_neg fun renamed => Mode.noConfusion renamed.1

end

section
variable {mode : Mode} {x z e o a b d t : ℝ} {extruded extrudes : Bool} {last : Machine Exact}
  {steps : List (Step Exact)} {commands : List (Command Exact)}

theorem exact_point (x z : ℝ) : point x z = (Point.mk x 0 z).exact := rfl

theorem length_move : (move a b d).length = .real |a - b| := by
  show Point.distance _ _ = _
  rw [move, exact_point, exact_point, Point.distance_exact, Point.gap]
  simp only [sub_self, mul_zero, add_zero, Real.sqrt_mul_self_eq_abs]

theorem upTo_move : (move a b d).upTo (.real t) = move a (a + (b - a) * t) (d * t) := by
  simp only [Move.upTo, move, exact_point, Point.along_exact, Point.between, Exact.real_mul, sub_self, zero_mul, add_zero]

private theorem onFrom_move : (move a b d).onFrom (.real t) = move (a + (b - a) * t) b (d * (1 - t)) := by
  simp only [Move.onFrom, move, exact_point, Point.along_exact, Point.between, Exact.one_eq, Exact.real_sub,
    Exact.real_mul, sub_self, zero_mul, add_zero]

theorem ofStep?_draw {number e' : ℝ} (pushed : e' - e = d) :
    Segment.ofStep? (.real 0) (spot mode a 0 e o extruded) (spot mode b 0 e' o extrudes) (draw b number) =
      some (.move (move a b d)) := by
  refine Segment.ofStep?_eq_some_iff.mpr ⟨rfl, physicalKnown_spot, .inl ⟨rfl, ?_, ?_⟩⟩
  · simp [physical_spot, point, Segment.layerTolerance, Exact.ofPlaces_eq]
  · rw [physical_spot, physical_spot, move, ← pushed, ← Exact.real_sub]
    rfl

private theorem ofStep?_switch (mode' : Mode) :
    Segment.ofStep? (.real 0) (spot mode x 0 e o extruded) (spot mode' x 0 e o extruded) (switch mode') =
      some (.other (switch mode')) := by
  refine Segment.ofStep?_eq_some_iff.mpr ⟨rfl, physicalKnown_spot, .inr ?_⟩
  cases mode' <;> exact ⟨rfl, by simp [switch, Command.ofWords, Command.code?], rfl⟩

theorem path_of_traced {cs : List (Command Exact)} {segments : List (Segment Exact)}
    (traced : Traced (.real 0) (spot mode x 0 e o extruded) cs segments last) :
    Segment.path? (spot mode x 0 e o extruded) cs = .ok (some segments) := by
  rw [Segment.path?, if_pos physicalKnown_spot, physical_spot]
  exact Segment.trace_eq_ok_iff.mpr ⟨last, traced⟩

/-- The starting taper over the steps, with the lane as its floor, leads from one machine to another. -/
def Rises (m : Machine Exact) (steps : List (Step Exact)) (last : Machine Exact) : Prop :=
  ∃ commands, Weave.emit (fun m step => .ok (some (Weave.rising (.real 1) (.real 0) m step))) m steps = .ok (commands, last)

/-- The ending taper over the steps leads from one machine to another. -/
def Falls (m : Machine Exact) (steps : List (Step Exact)) (last : Machine Exact) : Prop :=
  ∃ commands, Weave.emit Weave.falling m steps = .ok (commands, last)

theorem Rises.ramped {e' : ℝ} (le : t ≤ 1) (counts : e + d * t = e') (grows : 0 < d * t ↔ extrudes = true)
    (rest : Rises (spot mode b 0 e' o extrudes) steps last) :
    Rises (spot mode x 0 e o extruded) (.ramped (move a b d) (.real t) :: steps) last := by
  obtain ⟨_, later⟩ := rest
  have floor : Weave.risingHeight (Exact.real 1) (Exact.real 0) (Exact.real t) (Exact.real 0) = Exact.real 0 := by
    rw [Weave.risingHeight_real, max_eq_right (by linarith)]
  have line (m : Machine Exact) : Weave.rising (.real 1) (.real 0) m (.ramped (move a b d) (.real t)) =
      Weave.moveTo m (point b 0) (.real (d * t)) none true := by
    simp only [Weave.rising, move, point, floor, Exact.real_mul]
  refine ⟨_, Weave.emit_cons_eq_ok_iff.mpr (.inr ⟨_, _, _, rfl, ?_, later, rfl⟩)⟩
  rw [line]
  exact after_moveTo b 0 (d * t) true counts grows

theorem Rises.switch {mode' : Mode} (rest : Rises (spot mode' x z e o extruded) steps last) :
    Rises (spot mode x z e o extruded) (.other (switch mode') :: steps) last := by
  obtain ⟨_, later⟩ := rest
  exact ⟨_, Weave.emit_cons_eq_ok_iff.mpr (.inr ⟨_, _, _, rfl, after_switch mode', later, rfl⟩)⟩

theorem Falls.ramped {e' : ℝ} (counts : e + d * (1 - t) = e') (grows : 0 < d * (1 - t) ↔ extrudes = true)
    (rest : Falls (spot mode b z e' o extrudes) steps last) :
    Falls (spot mode x z e o extruded) (.ramped (move a b d) (.real t) :: steps) last := by
  obtain ⟨_, later⟩ := rest
  have here : (spot mode x z e o extruded).physicalPosition = .ok (point x z) :=
    (Machine.physicalPosition_eq_ok_iff ..).mpr ⟨physicalKnown_spot, physical_spot.symm⟩
  have line : Weave.falling (spot mode x z e o extruded) (.ramped (move a b d) (.real t)) =
      .ok (some (Weave.moveTo (spot mode x z e o extruded) (point b z) (.real (d * (1 - t))) none false)) := by
    rw [Weave.falling, here]
    simp [Except.map, move, point]
  exact ⟨_, Weave.emit_cons_eq_ok_iff.mpr
    (.inr ⟨_, _, _, line, after_moveTo b z (d * (1 - t)) false counts grows, later, rfl⟩)⟩

theorem Falls.switch {mode' : Mode} (rest : Falls (spot mode' x z e o extruded) steps last) :
    Falls (spot mode x z e o extruded) (.other (Lane.switch mode') :: steps) last := by
  obtain ⟨_, later⟩ := rest
  exact ⟨_, Weave.emit_cons_eq_ok_iff.mpr (.inr ⟨_, _, _, rfl, after_switch mode', later, rfl⟩)⟩

private theorem replay_tailLine {e' : ℝ} (counts : e + d = e') (grows : 0 < d ↔ extrudes = true) :
    (spot mode x z e o extruded).replay
      ((some (move a b d)).toList.map (Weave.tailLine (.real 0) (spot mode x z e o extruded))) =
        .ok (spot mode b 0 e' o extrudes) := by
  have line (m : Machine Exact) :
      Weave.tailLine (.real 0) m (move a b d) = Weave.moveTo m (point b 0) (.real d) none true := by
    simp only [Weave.tailLine, move, point, Exact.max_real, max_self]
  refine Machine.replay_cons_eq_ok_iff.mpr ⟨_, ?_, rfl⟩
  rw [line]
  exact after_moveTo b 0 d true counts grows

end

/-- A tuning for loops on the lane, with sections of a single step unless lines split them. -/
noncomputable def tuning (overlap : ℝ) : Tuning Exact := ⟨.real 1, .real overlap, .real 1, .real overlap⟩

theorem check_tuning {overlap : ℝ} (positive : 0 < overlap) : (tuning overlap).check = .ok () := by
  simp [tuning, Tuning.check, Tuning.entries, Tuning.objection?, positive]

/-- A loop that has room for it gets the overlap that is asked for. -/
theorem overlap_of_pathLength {overlap length : ℝ} {segments : List (Segment Exact)}
    (long : Segment.pathLength segments = .real length) (room : overlap ≤ length / 3) :
    Weave.overlap (tuning overlap) segments = .real overlap := by
  rw [Weave.overlap, Segment.effectiveOverlap, long, Exact.three_eq, Exact.real_div three_ne_zero]
  simp only [tuning, Exact.min_real]
  rw [min_eq_left room]

/-- A loop on the lane is tapered if the machine can be followed through its pieces. -/
theorem exists_tapered {overlap : ℝ} {markers : Bool} {run : Run Exact} {segments taper : List (Segment Exact)}
    {tail : Option (Move Exact)} {n : ℕ} {steps : List (Step Exact)}
    {risen boundary resumed met joined fallen last : Machine Exact}
    (cut : Weave.cut (tuning overlap) segments = ⟨taper, tail, n⟩) (placed : Weave.steps (tuning overlap) segments = steps)
    (unaltered : ∀ step ∈ steps, step.alteration? = none) (rises : Rises run.start steps risen)
    (replayed : run.start.replay (run.commands.take n) = .ok boundary)
    (declared : Weave.declared risen (Weave.resumption boundary.extrusion tail) = resumed)
    (bridged : resumed.replay (tail.toList.map (Weave.tailLine (.real 0) resumed)) = .ok met)
    (followed : met.replay (run.commands.drop n) = .ok joined) (falls : Falls joined steps fallen)
    (recounted : Weave.declared fallen run.finish.extrusion = last) :
    ∃ commands, Weave.weave (tuning overlap) (.real 0) markers run segments = .ok (.tapered commands) ∧
      run.start.replay commands = .ok last := by
  obtain ⟨_, rises⟩ := rises
  obtain ⟨_, falls⟩ := falls
  subst placed declared recounted
  have taken : run.start.replay (run.commands.take (Weave.cut (tuning overlap) segments).remainder) = .ok boundary := by
    rw [cut]; exact replayed
  have rest : met.replay (Weave.remainder (tuning overlap) segments run) = .ok joined := by
    rw [Weave.remainder, cut]; exact followed
  refine Weave.exists_tapered unaltered rises taken ?_ rest falls
  rw [cut]
  exact bridged

section
variable {a d d' : ℝ}

/-- The path that goes out as far as given and back again, with some filament on either way. -/
noncomputable def shuttlePath (a d d' : ℝ) : List (Segment Exact) := [.move (move 0 a d), .move (move a 0 d')]

theorem traced_shuttle (a : ℝ) (out : 0 < d) (back : 0 < d') :
    Traced (.real 0) (spot .relative 0 0 0 0 false) [draw a d, draw 0 d'] (shuttlePath a d d')
      (spot .relative 0 0 (d + d') 0 true) := by
  have first : count .relative 0 d = d := zero_add d
  have second : count .relative d d' = d + d' := rfl
  exact .cons (after_draw a first (iff_of_true out rfl)) (ofStep?_draw (sub_zero d))
    (.cons (after_draw 0 second (iff_of_true (lt_add_of_pos_right d back) rfl)) (ofStep?_draw (add_sub_cancel_left d d'))
      (.nil _))

noncomputable def shuttle (a : ℝ) {d d' : ℝ} (out : 0 < d) (back : 0 < d') : Run Exact :=
  ⟨_, _, _, (traced_shuttle a out back).replay⟩

theorem path_shuttle (out : 0 < d) (back : 0 < d') :
    Segment.path? (shuttle a out back).start (shuttle a out back).commands = .ok (some (shuttlePath a d d')) :=
  path_of_traced (traced_shuttle a out back)

theorem counted_draw (x e : ℝ) : (draw x e).Counted := by
  intro v given
  cases given
  exact ⟨e, rfl⟩

theorem counted_shuttle (a : ℝ) (out : 0 < d) (back : 0 < d') : (shuttle a out back).Counted :=
  ⟨⟨⟨0, rfl⟩, ⟨0, rfl⟩⟩,
    List.forall_mem_cons.mpr ⟨counted_draw a d, List.forall_mem_cons.mpr ⟨counted_draw 0 d', List.forall_mem_nil _⟩⟩⟩

variable (long : 3 / 2 ≤ a)
include long

theorem length_out : (move 0 a d).length = .real a := by
  rw [length_move, sub_eq_add_neg, zero_add, abs_neg, abs_of_nonneg (by linarith)]

private theorem length_back : (move a 0 d).length = .real a := by
  rw [length_move, sub_zero, abs_of_nonneg (by linarith)]

theorem pathLength_shuttle : Segment.pathLength (shuttlePath a d d') = .real (a + a) := by
  have lengths : (shuttlePath a d d').map Segment.length = [a, a].map Exact.real := by
    simp only [shuttlePath, Segment.length, length_out long, length_back long, List.map_cons, List.map_nil]
  rw [Segment.pathLength, lengths, Exact.sum_real, List.sum_cons, List.sum_cons, List.sum_nil, add_zero]

theorem overlap_shuttle : Weave.overlap (tuning 1) (shuttlePath a d d') = .real 1 :=
  overlap_of_pathLength (pathLength_shuttle long) (by linarith)

private theorem cut_shuttle : Weave.cut (tuning 1) (shuttlePath a d d') =
    ⟨[.move (move 0 1 (d / a))], some (move 1 a (d - d / a)), 1⟩ := by
  have nonzero : a ≠ 0 := by linarith
  have fraction : max 0 (min ((1 - 0) / a) 1) = 1 / a := by
    rw [sub_zero, min_eq_left ((div_le_one (by linarith)).mpr (by linarith)), max_eq_right (by positivity)]
  have part : 1 / a < 1 := (div_lt_one (by linarith)).mpr (by linarith)
  have least : 1 / 10 ^ 9 < a := by linarith
  have one : 0 + (a - 0) * (1 / a) = 1 := by rw [zero_add, sub_zero, mul_one_div_cancel nonzero]
  rw [Weave.cut, overlap_shuttle long, Cut.ofLength, shuttlePath, Cut.resume, length_out long, if_pos]
  · rw [Exact.zero_eq, Exact.real_sub, Exact.real_div nonzero, Exact.clamp_real, fraction, Cut.inside, upTo_move,
      onFrom_move, Exact.one_eq, if_pos ((Exact.real_lt ..).mpr part), one, mul_one_div, mul_sub, mul_one, mul_one_div]
  · rw [Exact.zero_eq, Exact.real_add, Exact.real_le, Segment.leastLength, Exact.ofPlaces_eq, Exact.real_lt]
    exact ⟨by simpa using least, by linarith⟩

/-- The section is a single step, at the end of the ramp throughout. -/
theorem steps_shuttle : Weave.steps (tuning 1) (shuttlePath a d d') = [.ramped (move 0 1 (d / a)) (.real 1)] := by
  have unit : (move 0 1 (d / a)).length = .real 1 := by rw [length_move]; norm_num
  rw [Weave.steps, Weave.taperSection, overlap_shuttle long, cut_shuttle long]
  simp [Segment.resample, Segment.steps, Move.steps, unit, tuning, Ramp.steps, Ramp.place, Ramp.ofSection,
    Segment.length, Segment.leastLength, Exact.ofPlaces_eq, Ramp.height]
  norm_num

/-- The shuttle is tapered, and leaves the head where its overlap ends. -/
theorem weave_shuttle (out : 0 < d) (back : 0 < d') (markers : Bool) :
    ∃ commands,
      Weave.weave (tuning 1) (.real 0) markers (shuttle a out back) (shuttlePath a d d') = .ok (.tapered commands) ∧
        (shuttle a out back).start.replay commands = .ok (spot .relative 1 0 (d + d') 0 false) := by
  have first : 0 < d / a * 1 := by rw [mul_one]; exact div_pos out (by linarith)
  have tail : 0 < d - d / a := sub_pos.mpr (div_lt_self out (by linarith))
  have met : d / a * 1 + (d - d / a) = d := by ring
  have last : count .relative d d' = d + d' := rfl
  exact exists_tapered (cut_shuttle long) (steps_shuttle long) (by simp [Step.alteration?])
    (.ramped le_rfl (zero_add _) (iff_of_true first rfl) ⟨_, rfl⟩)
    (Machine.replay_cons_eq_ok_iff.mpr ⟨_, after_draw a (zero_add d) (iff_of_true out rfl), rfl⟩)
    (declared_relative _) (replay_tailLine met (iff_of_true tail rfl))
    (Machine.replay_cons_eq_ok_iff.mpr ⟨_, after_draw 0 last (iff_of_true (lt_add_of_pos_right d back) rfl), rfl⟩)
    (.ramped (by simp) (by simp) ⟨_, rfl⟩) (declared_relative _)

end

/-- The path of a loop that goes out in two moves, the second of them to a total, and back again by an amount. -/
noncomputable def mixedPath : List (Segment Exact) :=
  [.move (move 0 1 1), .other (switch .absolute), .move (move 1 3 (3 - 1)), .other (switch .relative), .move (move 3 0 3)]

/-- Where the draws of the loop lead, one after the other. -/
theorem after_mixed :
    (spot .relative 0 0 0 0 false).after (draw 1 1) = .ok (spot .relative 1 0 1 0 true) ∧
      (spot .absolute 1 0 1 0 true).after (draw 3 3) = .ok (spot .absolute 3 0 3 0 true) ∧
        (spot .relative 3 0 3 0 true).after (draw 0 3) = .ok (spot .relative 0 0 6 0 true) := by
  have first : count .relative 0 1 = 1 := zero_add 1
  have second : count .absolute 1 3 = 3 := rfl
  have third : count .relative 3 3 = 6 := by norm_num [count]
  exact ⟨after_draw 1 first (iff_of_true (by norm_num) rfl), after_draw 3 second (iff_of_true (by norm_num) rfl),
    after_draw 0 third (iff_of_true (by norm_num) rfl)⟩

theorem traced_mixed :
    Traced (.real 0) (spot .relative 0 0 0 0 false)
      [draw 1 1, switch .absolute, draw 3 3, switch .relative, draw 0 3] mixedPath
        (spot .relative 0 0 6 0 true) := by
  obtain ⟨first, second, third⟩ := after_mixed
  exact .cons first (ofStep?_draw (by norm_num)) (.cons (after_switch .absolute) (ofStep?_switch .absolute)
    (.cons second (ofStep?_draw (by norm_num)) (.cons (after_switch .relative) (ofStep?_switch .relative)
      (.cons third (ofStep?_draw (by norm_num)) (.nil _)))))

noncomputable def mixed : Run Exact := ⟨_, _, _, traced_mixed.replay⟩

theorem path_mixed : Segment.path? mixed.start mixed.commands = .ok (some mixedPath) := path_of_traced traced_mixed

private theorem lengths_mixed :
    (move 0 1 1).length = .real 1 ∧ (move 1 3 (3 - 1)).length = .real 2 ∧ (move 3 0 3).length = .real 3 ∧
    (move 1 2 1).length = .real 1 := by
  norm_num [length_move]

theorem pathLength_mixed : Segment.pathLength mixedPath = .real 6 := by
  obtain ⟨first, second, third, _⟩ := lengths_mixed
  have lengths : mixedPath.map Segment.length = [1, 0, 2, 0, 3].map Exact.real := by
    simp only [mixedPath, Segment.length, first, second, third, Exact.zero_eq, List.map_cons, List.map_nil]
  rw [Segment.pathLength, lengths, Exact.sum_real]
  norm_num

theorem overlap_mixed : Weave.overlap (tuning 2) mixedPath = .real 2 :=
  overlap_of_pathLength pathLength_mixed (by norm_num)

theorem cut_mixed : Weave.cut (tuning 2) mixedPath =
    ⟨[.move (move 0 1 1), .other (switch .absolute), .move (move 1 2 1)], some (move 2 3 1), 3⟩ := by
  obtain ⟨first, second, _⟩ := lengths_mixed
  have half : max 0 (min ((2 - 1) / 2) 1) = (1 / 2 : ℝ) := by norm_num
  have short : ¬ (Segment.leastLength < Exact.real 1 ∧ Exact.real 2 ≤ Exact.real 0 + Exact.real 1) := by
    simp only [Exact.real_add, Exact.real_le]
    norm_num
  have reached : Segment.leastLength < Exact.real 2 ∧ Exact.real 2 ≤ Exact.real 1 + Exact.real 2 := by
    simp only [Exact.real_add, Exact.real_le, Segment.leastLength, Exact.ofPlaces_eq, Exact.real_lt]
    norm_num
  rw [Weave.cut, overlap_mixed, Cut.ofLength, mixedPath, Cut.resume, first, Exact.zero_eq, if_neg short, Exact.real_add,
    zero_add, Cut.resume, Cut.resume, second, if_pos reached, Exact.real_sub, Exact.real_div two_ne_zero, Exact.clamp_real,
    half, Cut.inside, upTo_move, onFrom_move, Exact.one_eq, if_pos ((Exact.real_lt ..).mpr one_half_lt_one)]
  norm_num [Cut.after]

theorem steps_mixed : Weave.steps (tuning 2) mixedPath =
    [.ramped (move 0 1 1) (.real 0), .other (switch .absolute), .ramped (move 1 2 1) (.real 1)] := by
  obtain ⟨first, _, _, last⟩ := lengths_mixed
  have long : Segment.leastLength < Exact.real 1 := by norm_num [Segment.leastLength, Exact.ofPlaces_eq]
  have still : ¬ Exact.real 1 ≤ Segment.leastLength := by norm_num [Segment.leastLength, Exact.ofPlaces_eq]
  have whole : ¬ Exact.real 2 < Exact.real 1 := by norm_num
  have resampled : Weave.taperSection (tuning 2) mixedPath =
      [.move (move 0 1 1), .other (switch .absolute), .move (move 1 2 1)] := by
    rw [Weave.taperSection, cut_mixed]
    simp only [Segment.resample, Segment.steps, Move.steps, first, last, tuning, if_neg whole, List.flatMap_cons,
      List.flatMap_nil, List.map_cons, List.map_nil, List.append_nil, List.singleton_append]
  have ramp : Ramp.ofSection (Exact.real 2) (Weave.taperSection (tuning 2) mixedPath) = ⟨.real 1, .real 1⟩ := by
    rw [resampled, Ramp.ofSection, List.map_cons, List.find?_cons_of_pos (by simp only [Segment.length, first, long, decide_true])]
    norm_num [Segment.length, first]
  have low : Ramp.height ⟨.real 1, .real 1⟩ (Exact.real 1) = .real 0 := by
    norm_num [Ramp.height, still, Exact.real_div]
  have high : Ramp.height ⟨.real 1, .real 1⟩ (Exact.real 2) = .real 1 := by
    norm_num [Ramp.height, still, Exact.real_div]
  rw [Weave.steps, overlap_mixed, Ramp.steps, ramp, resampled]
  simp only [Ramp.place, first, last, if_neg still, Exact.zero_eq, Exact.real_add, zero_add, low, one_add_one_eq_two, high]

/-- The loop is tapered, and leaves extrusion absolute. -/
theorem weave_mixed (markers : Bool) :
    ∃ commands, Weave.weave (tuning 2) (.real 0) markers mixed mixedPath = .ok (.tapered commands) ∧
      mixed.start.replay commands = .ok (spot .absolute 2 0 6 0 false) := by
  have rises : Rises (spot .relative 0 0 0 0 false)
      [.ramped (move 0 1 1) (.real 0), .other (switch .absolute), .ramped (move 1 2 1) (.real 1)]
      (spot .absolute 2 0 1 0 true) := by
    have first : (0 : ℝ) + 1 * 0 = 0 := by norm_num
    have second : (0 : ℝ) + 1 * 1 = 1 := by norm_num
    exact .ramped zero_le_one first (iff_of_false (by norm_num) Bool.false_ne_true)
      (.switch (.ramped le_rfl second (iff_of_true (by norm_num) rfl) ⟨_, rfl⟩))
  have boundary : mixed.start.replay (mixed.commands.take 3) = .ok (spot .absolute 3 0 3 0 true) := by
    obtain ⟨first, second, _⟩ := after_mixed
    exact Machine.replay_cons_eq_ok_iff.mpr ⟨_, first, Machine.replay_cons_eq_ok_iff.mpr ⟨_, after_switch .absolute,
      Machine.replay_cons_eq_ok_iff.mpr ⟨_, second, rfl⟩⟩⟩
  have resumed : Weave.declared (spot .absolute 2 0 1 0 true) (Weave.resumption (Exact.real 3) (some (move 2 3 1))) =
      spot .absolute 2 0 2 (-1) true := by
    show Weave.declared _ (Exact.real 3 - Exact.real 1) = _
    rw [Exact.real_sub]
    norm_num only
    exact declared_spot (by norm_num [Weave.slack]) (by norm_num)
  have followed : (spot .absolute 3 0 3 (-1) true).replay (mixed.commands.drop 3) = .ok (spot .relative 0 0 6 (-1) true) := by
    have back : count .relative 3 3 = 6 := by norm_num [count]
    exact Machine.replay_cons_eq_ok_iff.mpr ⟨_, after_switch .relative,
      Machine.replay_cons_eq_ok_iff.mpr ⟨_, after_draw 0 back (iff_of_true (by norm_num) rfl), rfl⟩⟩
  have falls : Falls (spot .relative 0 0 6 (-1) true)
      [.ramped (move 0 1 1) (.real 0), .other (switch .absolute), .ramped (move 1 2 1) (.real 1)]
      (spot .absolute 2 0 7 (-1) false) := by
    have first : (6 : ℝ) + 1 * (1 - 0) = 7 := by norm_num
    have second : (7 : ℝ) + 1 * (1 - 1) = 7 := by norm_num
    exact .ramped first (iff_of_true (by norm_num) rfl)
      (.switch (.ramped second (iff_of_false (by norm_num) Bool.false_ne_true) ⟨_, rfl⟩))
  have recounted : Weave.declared (spot .absolute 2 0 7 (-1) false) mixed.finish.extrusion = spot .absolute 2 0 6 0 false :=
    declared_spot (by norm_num [Weave.slack]) (by norm_num)
  have unaltered : ∀ step ∈ [Step.ramped (move 0 1 1) (.real 0), .other (switch .absolute),
      .ramped (move 1 2 1) (.real 1)], step.alteration? = none := by
    simp only [List.forall_mem_cons]
    exact ⟨rfl, rfl, rfl, List.forall_mem_nil _⟩
  exact exists_tapered cut_mixed steps_mixed unaltered rises boundary resumed
    (replay_tailLine (by norm_num) (iff_of_true (by norm_num) rfl)) followed falls recounted

end Seam.Lane
