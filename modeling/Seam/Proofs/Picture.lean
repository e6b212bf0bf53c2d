import Seam.Proofs.Eligible
import Seam.Proofs.Pace
import Seam.Proofs.Resets

/-!
What a path shows of its lines. Behind every line of a path the machine knows where it
is, so a line that is no straight motion can give its counts new names but not move the
head (`Transition.Followed.physical_eq`). The moves are therefore an unbroken chain from
where the machine starts to where it ends (`Passage.chained`), and since declarations push
no filament either, the moves push between them all that is pushed along the lines
(`Passage.exists_pushed`).
-/
namespace Seam

/-- The moves lead from one point to another, each from where the one before it ends. -/
inductive Move.Chained {α : Type} : Point α → List (Move α) → Point α → Prop
  | nil (p : Point α) : Chained p [] p
  | cons {p q : Point α} {m : Move α} {moves : List (Move α)} (begins : m.start = p)
      (rest : Chained m.stop moves q) : Chained p (m :: moves) q

namespace Transition

variable {t : Transition Exact} {height : Exact}

private theorem Followed.isMotion_eq (followed : t.Followed height) : t.isMotion = t.isLinear := by
  cases linear : t.isLinear with
  | true => exact (Command.effect_of_isLinear linear .absolute .filament).1
  | false => exact Command.isMotion_eq_false_iff.mpr ⟨followed.straight, linear⟩

theorem Followed.physical_eq (followed : t.Followed height) (known : t.before.physicalKnown = true)
    (stepped : t.before.after t.line = .ok t.after) (other : t.isLinear = false) :
    t.after.physical = t.before.physical :=
  Machine.physical_eq_of_still known stepped followed.known
    (Command.isMotion_eq_false_iff.mpr ⟨followed.straight, other⟩) followed.unhomed

/-- The straight line ends in the layer. -/
private theorem Followed.exists_rise (followed : t.Followed height) (layer : height.IsReal) (linear : t.isLinear = true) :
    ∃ d : ℝ, t.after.physical.z = height + .real d ∧ |d| ≤ 1 / 10 ^ 6 := by
  obtain ⟨h, rfl⟩ := layer
  obtain ⟨p, here⟩ := Machine.exists_physical followed.known
  have level := followed.level linear
  have z : t.after.physical.z = .real p.z := by rw [here]; rfl
  rw [z, Segment.layerTolerance, Exact.ofPlaces_eq, Exact.real_sub, Exact.abs_real, Exact.real_lt, not_lt] at level
  refine ⟨p.z - h, ?_, by simpa using level⟩
  rw [z, Exact.real_add, add_sub_cancel]

end Transition

namespace Passage

variable {m last : Machine Exact} {ts : List (Transition Exact)} {height : Exact}

private theorem physicalKnown_last (passes : Passage m ts last) (known : m.physicalKnown = true)
    (followed : ∀ t ∈ ts, t.Followed height) : last.physicalKnown = true := by
  induction passes with
  | nil => exact known
  | cons _ _ ih =>
    obtain ⟨here, others⟩ := List.forall_mem_cons.mp followed
    exact ih here.known others

theorem chained (passes : Passage m ts last) (known : m.physicalKnown = true)
    (followed : ∀ t ∈ ts, t.Followed height) :
    Move.Chained m.physical (Segment.moves (ts.map Transition.segment)) last.physical := by
  induction passes with
  | nil => exact .nil _
  | @cons m next last c ts stepped _ ih =>
    obtain ⟨here, others⟩ := List.forall_mem_cons.mp followed
    have rest := ih here.known others
    rw [List.map_cons]
    cases linear : Transition.isLinear ⟨m, c, next⟩ with
    | true =>
      rw [Transition.segment_of_isLinear linear]
      exact .cons rfl rest
    | false =>
      rw [Transition.segment_of_not_isLinear linear]
      have unmoved := here.physical_eq known stepped linear
      exact unmoved ▸ rest

/-- The moves of the path push what the motions among the lines add to the count. -/
private theorem extrusions_eq (followed : ∀ t ∈ ts, t.Followed height) :
    (Segment.moves (ts.map Transition.segment)).map (·.extrusion) =
      (ts.filter Transition.isMotion).map Transition.counted := by
  induction ts with
  | nil => rfl
  | cons t ts ih =>
    obtain ⟨here, others⟩ := List.forall_mem_cons.mp followed
    rw [List.map_cons]
    cases linear : t.isLinear with
    | true =>
      rw [List.filter_cons_of_pos (here.isMotion_eq.trans linear), List.map_cons, ← ih others,
        Transition.segment_of_isLinear linear]
      rfl
    | false =>
      rw [List.filter_cons_of_neg (Bool.eq_false_iff.mp (here.isMotion_eq.trans linear)), ← ih others,
        Transition.segment_of_not_isLinear linear]
      rfl

theorem exists_pushed (passes : Passage m ts last) (followed : ∀ t ∈ ts, t.Followed height) (counted : m.Counted)
    (given : ∀ t ∈ ts, t.line.Counted) :
    ∃ pushed : ℝ, Scalar.sum ((Segment.moves (ts.map Transition.segment)).map (·.extrusion)) = .real pushed ∧
      last.physicalExtrusion = m.physicalExtrusion + .real pushed := by
  obtain ⟨amounts, motions, total, _⟩ := passes.exists_amounts counted given
  exact ⟨amounts.sum, by rw [extrusions_eq followed, motions, Exact.sum_real], total⟩

/-- Behind every line the machine runs at the rate that was given last, on the line itself or before it. -/
theorem feedRate_eq {front back : List (Transition Exact)} {t : Transition Exact}
    (passes : Passage m (front ++ t :: back) last) :
    t.after.feedRate = (Command.lastFeed? ((front ++ [t]).map (·.line))).or m.feedRate := by
  obtain ⟨mid, before, behind⟩ := passes.of_append
  cases behind with
  | cons stepped rest => exact Machine.feedRate_replay (before.append (.cons stepped (.nil _))).replay

end Passage

private theorem Transition.mem_moves_segment {ts : List (Transition Exact)} {m : Move Exact}
    (drawn : m ∈ Segment.moves (ts.map segment)) : ∃ t ∈ ts, t.isLinear = true ∧ m.stop = t.after.physical := by
  obtain ⟨s, among, shown⟩ := List.mem_filterMap.mp drawn
  obtain ⟨t, mem, rfl⟩ := List.mem_map.mp among
  cases linear : t.isLinear with
  | true =>
    rw [segment_of_isLinear linear] at shown
    cases shown
    exact ⟨t, mem, linear, rfl⟩
  | false =>
    rw [segment_of_not_isLinear linear] at shown
    cases shown

/-- What the path of some lines shows of the machine's way along them. -/
structure Segment.Pictures (start : Machine Exact) (ts : List (Transition Exact)) (last : Machine Exact)
    (segments : List (Segment Exact)) : Prop where
  passes : Passage start ts last
  /-- Line by line, a straight line is a move from where the machine is before it to where it is behind it, at the
      rate in effect there, and any other line is itself. -/
  entries : segments = ts.map Transition.segment
  start_known : start.physicalPosition = .ok start.physical
  last_known : last.physicalPosition = .ok last.physical
  /-- The moves are an unbroken chain, whatever is declared between them. -/
  chained : Move.Chained start.physical (moves segments) last.physical
  level : ∀ m ∈ moves segments, ∃ d : ℝ, m.stop.z = start.physical.z + .real d ∧ |d| ≤ 1 / 10 ^ 6
  /-- The rate in effect is the one given last, on the line or before it. -/
  feedRate : ∀ front t back, ts = front ++ t :: back →
    t.after.feedRate = (Command.lastFeed? ((front ++ [t]).map (·.line))).or start.feedRate
  /-- The moves push between them by how much the physical count changes. -/
  pushed : start.Counted → (∀ t ∈ ts, t.line.Counted) →
    ∃ pushed : ℝ, Scalar.sum ((moves segments).map (·.extrusion)) = .real pushed ∧
      last.physicalExtrusion = start.physicalExtrusion + .real pushed

/-- The path of some lines, if they are one, is a faithful picture of the machine's way along them. -/
theorem Segment.pictures_of_path {start : Machine Exact} {commands : List (Command Exact)}
    {segments : List (Segment Exact)} (path : path? start commands = .ok (some segments)) :
    ∃ ts last, ts.map (·.line) = commands ∧ Pictures start ts last segments := by
  obtain ⟨known, last, traced⟩ := path?_eq_ok_iff.mp path
  obtain ⟨ts, passes, rfl⟩ := Passage.of_replay traced.replay
  obtain ⟨_, followed, rfl⟩ := (path?_eq_some_iff passes).mp path
  have layer : start.physical.z.IsReal := by
    obtain ⟨p, here⟩ := Machine.exists_physical known
    exact ⟨p.z, by rw [here]; rfl⟩
  refine ⟨ts, last, rfl, passes, rfl, ?_, ?_, passes.chained known followed, fun m mem => ?_, ?_,
    passes.exists_pushed followed⟩
  · exact (start.physicalPosition_eq_ok_iff _).mpr ⟨known, rfl⟩
  · exact (last.physicalPosition_eq_ok_iff _).mpr ⟨passes.physicalKnown_last known followed, rfl⟩
  · obtain ⟨t, mem, linear, drawn⟩ := Transition.mem_moves_segment mem
    rw [drawn]
    exact (followed t mem).exists_rise layer linear
  · rintro front t back rfl
    exact passes.feedRate_eq

namespace Lane

/-- The machine on the lane that is some way ahead by name, and has its count of filament renamed. -/
noncomputable def renamed (mode : Mode) (ahead x e o : ℝ) : Machine Exact :=
  { spot mode x 0 e o true with offset := point (-ahead) 0 }

private theorem physical_renamed {mode : Mode} {ahead x e o : ℝ} :
    (renamed mode ahead x e o).physical = point (x - ahead) 0 := by
  show Point.mk _ _ _ = _
  simp [renamed, spot, point, sub_eq_add_neg]

private theorem physicalKnown_renamed {mode : Mode} {ahead x e o : ℝ} : (renamed mode ahead x e o).physicalKnown = true := by
  rw [Machine.physicalKnown, physical_renamed]
  rfl

private theorem after_rename (a b e : ℝ) :
    (spot .relative a 0 a 0 true).after (rename b e) = .ok (renamed .relative (b - a) b e (a - e)) := by
  have words : ∀ w : Words Exact, w = ⟨[('X', .real b), ('E', .real e)]⟩ → w.get? 'E' = some (.real e) ∧
      w.axis? .x = some (.real b) ∧ w.axis? .y = none ∧ w.axis? .z = none := by
    rintro w rfl
    exact ⟨rfl, rfl, rfl, rfl⟩
  simp [Machine.after, Machine.step, rename, Command.ofWords, words, Machine.declarePosition, Machine.declareExtrusion,
    Point.ofFn, Point.get, spot, point, renamed]

private theorem after_draw_renamed {ahead x e o d : ℝ} (x' : ℝ) (grows : 0 < d) :
    (renamed .absolute ahead x e o).after (draw x' (e + d)) = .ok (renamed .absolute ahead x' (e + d) o) := by
  have words : ∀ w : Words Exact, w = ⟨[('X', .real x'), ('E', .real (e + d))]⟩ → w.get? 'E' = some (.real (e + d)) ∧
      w.get? 'F' = none ∧ w.axis? .x = some (.real x') ∧ w.axis? .y = none ∧ w.axis? .z = none := by
    rintro w rfl
    exact ⟨rfl, rfl, rfl, rfl, rfl⟩
  simp [Machine.after, Machine.step, draw, Command.ofWords, words, spot, Machine.move, Point.ofFn, Machine.target,
    Machine.extrusionTarget, Point.get, point, renamed, grows]

/-- The path of a loop that goes out, is renamed, and goes back to a total. -/
noncomputable def renamedPath (a b e d : ℝ) : List (Segment Exact) :=
  [.move (move 0 a a), .other (rename b e), .other (switch .absolute), .move (move a 0 d)]

private theorem path_renamed {a d : ℝ} (b e : ℝ) (out : 0 < a) (inward : 0 < d) :
    Segment.path? (spot .relative 0 0 0 0 false) [draw a a, rename b e, switch .absolute, draw (b - a) (e + d)] =
      .ok (some (renamedPath a b e d)) := by
  have counts : count .relative 0 a = a := zero_add a
  have switched : (renamed .relative (b - a) b e (a - e)).after (switch .absolute) =
      .ok (renamed .absolute (b - a) b e (a - e)) := rfl
  refine path_of_traced (.cons (after_draw a counts (iff_of_true out rfl)) (ofStep?_draw (sub_zero a))
    (.cons (after_rename a b e) ?_ (.cons switched ?_ (.cons (after_draw_renamed (b - a) inward) ?_ (.nil _)))))
  · refine Segment.ofStep?_eq_some_iff.mpr ⟨rfl, physicalKnown_renamed, .inr ⟨rfl, ?_, rfl⟩⟩
    simp [rename, Command.ofWords, Command.code?]
  · refine Segment.ofStep?_eq_some_iff.mpr ⟨rfl, physicalKnown_renamed, .inr ⟨rfl, ?_, rfl⟩⟩
    simp [switch, Command.ofWords, Command.code?]
  · refine Segment.ofStep?_eq_some_iff.mpr ⟨rfl, physicalKnown_renamed, .inl ⟨rfl, ?_, ?_⟩⟩
    · simp [physical_renamed, point, Segment.layerTolerance, Exact.ofPlaces_eq]
    · rw [physical_renamed, physical_renamed, move]
      simp [renamed, spot]

end Lane

/-- What is declared in the middle of a loop breaks neither the chain of its moves nor the sum of what they push. -/
theorem Segment.pictures_of_renamed :
    ∃ ts last, ts.map (·.line) = [Lane.draw 3 3, Lane.rename 5 7, Lane.switch .absolute, Lane.draw 2 9] ∧
      Pictures (Lane.spot .relative 0 0 0 0 false) ts last (Lane.renamedPath 3 5 7 2) ∧
        last.physicalExtrusion = .real 5 := by
  have path := Lane.path_renamed 5 7 three_pos two_pos
  have back : (5 : ℝ) - 3 = 2 := by norm_num
  have total : (7 : ℝ) + 2 = 9 := by norm_num
  rw [back, total] at path
  obtain ⟨ts, last, lines, pictures⟩ := pictures_of_path path
  have counted : ∀ c ∈ [Lane.draw 3 3, Lane.rename 5 7, Lane.switch .absolute, Lane.draw 2 9], c.Counted := by
    simp only [List.forall_mem_cons]
    exact ⟨Lane.counted_draw 3 3, (Command.finite_of_entries (by simp)).counted, Command.Counted.of_bare rfl,
      Lane.counted_draw 2 9, List.forall_mem_nil _⟩
  obtain ⟨pushed, sum, total⟩ := pictures.pushed ⟨⟨0, rfl⟩, ⟨0, rfl⟩⟩ fun t mem =>
    counted t.line (lines ▸ List.mem_map_of_mem mem)
  have amounts : (moves (Lane.renamedPath 3 5 7 2)).map (·.extrusion) = [3, 2].map Exact.real := rfl
  rw [amounts, Exact.sum_real, Exact.real.injEq] at sum
  have start : (Lane.spot .relative 0 0 0 0 false).physicalExtrusion = Exact.real (0 + 0) := rfl
  refine ⟨ts, last, lines, pictures, ?_⟩
  rw [total, start, Exact.real_add, ← sum]
  norm_num

end Seam
