import Seam.Proofs.Blocks
import Seam.Proofs.Lane
import Seam.Proofs.Passage

/-!
Trips on the lane: programs that home the head, make a loop on the lane and go on
with lines that do not extrude. The loop is a block of its own, and so is every other
line (`Lane.rewrite_trip`).
-/
namespace Seam

/-- The floor stays where it is as long as no line leads below it. -/
private theorem Floor.ofCommands_of_passage {last : Machine Exact} {ts : List (Transition Exact)}
    (passes : Passage Machine.powerOn ts last) (above : ∀ t ∈ ts, Floor.lower 0 t.after = .ok (0 : Exact)) :
    Floor.ofCommands (ts.map (·.line)) = .ok 0 := by
  refine Floor.ofCommands_eq_ok_iff.mpr ⟨last, ?_⟩
  generalize (Machine.powerOn : Machine Exact) = m at passes ⊢
  induction passes with
  | nil => rfl
  | cons stepped rest ih =>
    obtain ⟨here, others⟩ := List.forall_mem_cons.mp above
    exact Floor.search_cons_eq_ok_iff.mpr ⟨_, 0, stepped, here, ih others⟩

/-- A run ends where a line no longer extrudes. -/
theorem Machine.extruding_of_passage {α : Type} [Scalar α] {m mid next : Machine α} {ts : List (Transition α)}
    {c : Command α} (passes : Passage m ts mid) (extrudes : ∀ t ∈ ts, t.after.extruded = true)
    (stepped : mid.after c = .ok next) (ends : next.extruded = false) (rest : List (Command α)) :
    m.extruding (ts.map (·.line) ++ c :: rest) = .ok (ts.map (·.line), mid) := by
  induction passes with
  | nil => simp [extruding, stepped, ends]
  | @cons _ next _ _ _ first _ ih =>
    obtain ⟨here, others⟩ := List.forall_mem_cons.mp extrudes
    have pushes : next.extruded = true := here
    rw [List.map_cons, List.cons_append, extruding, first]
    simp only [pushes, ↓reduceIte, ih others stepped]

namespace Lane

variable {mode : Mode} {x z e o : ℝ} {extruded : Bool}

theorem height?_spot : Floor.height? (spot mode x z e o extruded) = some (.real z) := by
  rw [Floor.height?, if_pos (by rfl)]
  exact congrArg some (congrArg Point.z physical_spot)

theorem lower_spot (above : 0 ≤ z) : Floor.lower 0 (spot mode x z e o extruded) = .ok (0 : Exact) := by
  rw [Floor.lower, height?_spot, Exact.zero_eq]
  simp only [Exact.isFinite_real, ↓reduceIte, Exact.real_lt, if_neg (not_lt.mpr above)]

/-- A trip is rewritten block by block, whatever the verdict on its run. -/
theorem rewrite_judged (run : Run Exact) (us : List (Transition Exact)) {overlap : ℝ} {markers : Bool}
    {verdict : Verdict Exact} {next last out finish : Machine Exact}
    {c c' : Command Exact} {ts vs : List (Transition Exact)} (positive : 0 < overlap)
    (start : run.start = spot .relative 0 0 0 0 false)
    (passes : Passage run.start ts run.finish) (lines : ts.map (·.line) = run.commands)
    (extrudes : ∀ t ∈ ts, t.after.extruded = true) {cs : List (Command Exact)} (first : run.commands = c :: cs)
    (would : run.start.wouldExtrude c = .ok true)
    (judged : (⟨tuning overlap, markers⟩ : Pass Exact).judge 0 run = .ok verdict)
    (replayed : run.start.replay (Block.run 2 run.commands verdict).emitted = .ok last)
    (source : Passage run.finish (⟨run.finish, c', next⟩ :: vs) finish) (ends : next.extruded = false)
    (written : Passage last us out) (same : us.map (·.line) = c' :: vs.map (·.line))
    (silent : ∀ t ∈ us, t.before.wouldExtrude t.line = .ok false)
    (above : ∀ t ∈ ts ++ ⟨run.finish, c', next⟩ :: vs, Floor.lower 0 t.after = .ok (0 : Exact))
    (admitted : Admission.check (home :: (run.commands ++ us.map (·.line))) = .ok ()) :
    let p : Pass Exact := ⟨tuning overlap, markers⟩
    Floor.ofCommands (home :: (run.commands ++ us.map (·.line))) = .ok 0 ∧
      p.blocks 0 (home :: (run.commands ++ us.map (·.line))) =
          .ok (.single home :: .run 2 run.commands verdict :: (us.map (·.line)).map .single) ∧
        ∃ rewritten, p.rewrite (home :: (run.commands ++ us.map (·.line))) = .ok rewritten := by
  intro p
  have homed : Machine.powerOn.after home = .ok run.start := by rw [start]; exact after_home
  have floor : Floor.ofCommands (home :: (run.commands ++ us.map (·.line))) = .ok 0 := by
    have whole : Passage Machine.powerOn (⟨Machine.powerOn, home, run.start⟩ :: (ts ++ ⟨run.finish, c', next⟩ :: vs)) finish :=
      .cons homed (passes.append source)
    have := Floor.ofCommands_of_passage whole (List.forall_mem_cons.mpr ⟨by rw [start]; exact lower_spot le_rfl, above⟩)
    rw [List.map_cons, List.map_append, lines, List.map_cons, ← same] at this
    exact this
  have blocks : p.blocks 0 (home :: (run.commands ++ us.map (·.line))) =
      .ok (.single home :: .run 2 run.commands verdict :: (us.map (·.line)).map .single) := by
    have extruding := Machine.extruding_of_passage passes extrudes
      (Passage.step_of_mem source (List.mem_cons_self ..)) ends (vs.map (·.line))
    rw [lines, ← same] at extruding
    have single : p.block 0 Machine.powerOn 1 home (run.commands ++ us.map (·.line)) = .ok (.single home) :=
      Pass.block_of_silent rfl
    have loop : p.block 0 run.start 2 c (cs ++ us.map (·.line)) = .ok (.run 2 run.commands verdict) := by
      refine Pass.block_of_judge would ?_ judged
      rw [← List.cons_append, ← first]
      exact extruding
    have rest : (cs ++ us.map (·.line)).drop (run.commands.length - 1) = us.map (·.line) := by
      rw [first, List.length_cons, Nat.add_sub_cancel, List.drop_left]
    rw [Pass.blocks, Pass.walk_cons single (Machine.replay_cons_eq_ok_iff.mpr ⟨_, homed, rfl⟩)]
    show p.walk 0 run.start 2 [.single home] (run.commands ++ us.map (·.line)) = _
    conv => lhs; rw [first, List.cons_append]
    rw [Pass.walk_cons loop replayed]
    show p.walk 0 last _ _ ((cs ++ us.map (·.line)).drop (run.commands.length - 1)) = _
    rw [rest, Pass.walk_of_silent written silent]
    rfl
  exact ⟨floor, blocks, _, Pass.rewrite_eq_ok_iff.mpr ⟨check_tuning positive, admitted, 0, floor, _, blocks, rfl⟩⟩

/-- A trip whose run is a loop that can be tapered is rewritten with its tapered form. -/
theorem rewrite_trip (run : Run Exact) (us : List (Transition Exact)) {overlap : ℝ} {markers : Bool}
    {segments : List (Segment Exact)} {commands : List (Command Exact)} {next last out finish : Machine Exact}
    {c c' : Command Exact} {ts vs : List (Transition Exact)} (positive : 0 < overlap)
    (start : run.start = spot .relative 0 0 0 0 false)
    (passes : Passage run.start ts run.finish) (lines : ts.map (·.line) = run.commands)
    (extrudes : ∀ t ∈ ts, t.after.extruded = true) {cs : List (Command Exact)} (first : run.commands = c :: cs)
    (would : run.start.wouldExtrude c = .ok true) (closed : run.isClosed (.real 1) = true)
    (path : Segment.path? run.start run.commands = .ok (some segments))
    (long : ¬ Segment.pathLength segments < .real overlap)
    (woven : Weave.weave (tuning overlap) 0 markers run segments = .ok (.tapered commands))
    (replayed : run.start.replay commands = .ok last)
    (source : Passage run.finish (⟨run.finish, c', next⟩ :: vs) finish) (ends : next.extruded = false)
    (written : Passage last us out) (same : us.map (·.line) = c' :: vs.map (·.line))
    (silent : ∀ t ∈ us, t.before.wouldExtrude t.line = .ok false)
    (above : ∀ t ∈ ts ++ ⟨run.finish, c', next⟩ :: vs, Floor.lower 0 t.after = .ok (0 : Exact))
    (admitted : Admission.check (home :: (run.commands ++ us.map (·.line))) = .ok ()) :
    let p : Pass Exact := ⟨tuning overlap, markers⟩
    Floor.ofCommands (home :: (run.commands ++ us.map (·.line))) = .ok 0 ∧
      p.blocks 0 (home :: (run.commands ++ us.map (·.line))) =
          .ok (.single home :: .run 2 run.commands (.tapered commands) :: (us.map (·.line)).map .single) ∧
        ∃ rewritten, p.rewrite (home :: (run.commands ++ us.map (·.line))) = .ok rewritten :=
  rewrite_judged run us positive start passes lines extrudes first would
    (Pass.judge_eq_tapered_iff.mpr ⟨closed, segments, path, long, woven⟩) replayed source ends written same silent above
    admitted

theorem isClosed_of_spot {run : Run Exact} {mode' : Mode} {e' o' : ℝ} {extruded' : Bool}
    (start : run.start = spot mode x z e o extruded) (finish : run.finish = spot mode' x z e' o' extruded') :
    run.isClosed (.real 1) = true := by
  have near : (point x z).distance (point x z) = .real 0 := by
    rw [exact_point, Point.distance_exact, Point.gap]
    simp
  rw [Run.isClosed, start, finish, physicalKnown_spot, physicalKnown_spot, physical_spot, physical_spot, near]
  simp

/-- A shuttle is rewritten, whatever height the head is lifted to afterwards. -/
theorem rewrite_shuttle {a d d' z : ℝ} (long : 3 / 2 ≤ a) (out : 0 < d) (back : 0 < d') (above : 0 ≤ z) (markers : Bool) :
    ∃ commands, (shuttle a out back).start.replay commands = .ok (spot .relative 1 0 (d + d') 0 false) ∧
      Floor.ofCommands [home, draw a d, draw 0 d', lift z] = .ok 0 ∧
        (⟨tuning 1, markers⟩ : Pass Exact).blocks 0 [home, draw a d, draw 0 d', lift z] =
            .ok [.single home, .run 2 [draw a d, draw 0 d'] (.tapered commands), .single (lift z)] ∧
          ∃ rewritten, (⟨tuning 1, markers⟩ : Pass Exact).rewrite [home, draw a d, draw 0 d', lift z] = .ok rewritten := by
  obtain ⟨commands, woven, replayed⟩ := weave_shuttle long out back markers
  refine ⟨commands, replayed, ?_⟩
  have first : count .relative 0 d = d := zero_add d
  have second : count .relative d d' = d + d' := rfl
  have grows : d < d + d' := lt_add_of_pos_right d back
  have outward := @after_draw .relative 0 0 0 0 false a d d true first (iff_of_true out rfl)
  have inward := @after_draw .relative a 0 d 0 true 0 d' (d + d') true second (iff_of_true grows rfl)
  have source := @after_lift .relative 0 0 (d + d') 0 true z
  have written := @after_lift .relative 1 0 (d + d') 0 false z
  have admitted : Admission.check [home, draw a d, draw 0 d', lift z] = .ok () := by
    simp [Admission.check, Admission.objection?, home, draw, lift, Command.ofWords, Command.leadingToken?,
      Words.contains, Words.get?]
  refine rewrite_trip (shuttle a out back) [⟨_, _, _⟩] one_pos rfl (.cons outward (.cons inward (.nil _))) rfl ?_ rfl
    (wouldExtrude_draw a first (iff_of_true out rfl)) (isClosed_of_spot rfl rfl) (path_shuttle out back) ?_
    (Exact.zero_eq ▸ woven) replayed (.cons source (.nil _)) rfl (.cons written (.nil _)) rfl ?_ ?_ admitted
  · simp only [List.forall_mem_cons]
    exact ⟨rfl, rfl, List.forall_mem_nil _⟩
  · rw [pathLength_shuttle long, Exact.real_lt]
    linarith
  · simp only [List.forall_mem_cons]
    exact ⟨wouldExtrude_lift z, List.forall_mem_nil _⟩
  · simp only [List.cons_append, List.nil_append, List.forall_mem_cons]
    exact ⟨lower_spot le_rfl, lower_spot le_rfl, lower_spot above, List.forall_mem_nil _⟩

/-- The lines of a trip whose loop goes out by totals and back by amounts, and that goes on by an amount. -/
noncomputable def mixedTrip : List (Command Exact) :=
  home :: (mixed.commands ++ [lift 1, draw 1 1])

theorem rewrite_mixed (markers : Bool) :
    ∃ commands, mixed.start.replay commands = .ok (spot .absolute 2 0 6 0 false) ∧
      Floor.ofCommands mixedTrip = .ok 0 ∧
        (⟨tuning 2, markers⟩ : Pass Exact).blocks 0 mixedTrip =
            .ok [.single home, .run 2 mixed.commands (.tapered commands), .single (lift 1), .single (draw 1 1)] ∧
          ∃ rewritten, (⟨tuning 2, markers⟩ : Pass Exact).rewrite mixedTrip = .ok rewritten := by
  obtain ⟨commands, woven, replayed⟩ := weave_mixed markers
  refine ⟨commands, replayed, ?_⟩
  have first : count .relative 0 1 = 1 := zero_add 1
  have fourth : count .relative 6 1 = 7 := by norm_num [count]
  have fifth : count .absolute 6 1 = 1 := rfl
  have none : ¬ (6 : ℝ) < 1 := by norm_num
  obtain ⟨one, three, inward⟩ := after_mixed
  have lifted := @after_lift .relative 0 0 6 0 true 1
  have onward := @after_draw .relative 0 1 6 0 false 1 1 7 true fourth (iff_of_true (by norm_num) rfl)
  have lifted' := @after_lift .absolute 2 0 6 0 false 1
  have onward' := @after_draw .absolute 2 1 6 0 false 1 1 1 false fifth (iff_of_false none Bool.false_ne_true)
  have admitted : Admission.check mixedTrip = .ok () := by
    simp [mixedTrip, mixed, Admission.check, Admission.objection?, home, draw, lift, switch, Command.ofWords,
      Command.leadingToken?, Words.contains, Words.get?]
  refine rewrite_trip mixed [⟨_, _, _⟩, ⟨_, _, _⟩] two_pos rfl
    (.cons one (.cons (after_switch .absolute) (.cons three (.cons (after_switch .relative) (.cons inward (.nil _))))))
    rfl ?_ rfl (wouldExtrude_draw 1 first (iff_of_true one_pos rfl)) (isClosed_of_spot rfl rfl) path_mixed ?_
    (Exact.zero_eq ▸ woven) replayed (.cons lifted (.cons onward (.nil _))) rfl (.cons lifted' (.cons onward' (.nil _))) rfl
    ?_ ?_ admitted
  · simp only [List.forall_mem_cons]
    exact ⟨rfl, rfl, rfl, rfl, rfl, List.forall_mem_nil _⟩
  · rw [pathLength_mixed, Exact.real_lt]
    norm_num
  · simp only [List.forall_mem_cons]
    exact ⟨wouldExtrude_lift 1, wouldExtrude_draw 1 fifth (iff_of_false none Bool.false_ne_true),
      List.forall_mem_nil _⟩
  · simp only [List.cons_append, List.nil_append, List.forall_mem_cons]
    exact ⟨lower_spot le_rfl, lower_spot le_rfl, lower_spot le_rfl, lower_spot le_rfl, lower_spot le_rfl,
      lower_spot zero_le_one, lower_spot zero_le_one, List.forall_mem_nil _⟩

end Lane

end Seam
