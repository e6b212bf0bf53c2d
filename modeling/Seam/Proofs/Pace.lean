import Seam.Proofs.Eligible
import Seam.Proofs.Slip
import Seam.Proofs.Totality

/-!
The feed rate behind a tapered loop. The ending taper runs at the rates of the section, so
it leaves the rate of the section's last move, and nothing puts back the one at which the
loop ended (`Weave.pace`, `Weave.feedRate_of_tapered`). That rate holds until a line gives
another, so an untouched line runs at the rate that it has in the program exactly if a line
behind the last loop that was replaced gives one, or if that loop leaves the right one
(`Pass.paced_of_rewrite`).
-/
namespace Seam

section
variable {α : Type}

namespace Command

/-- The feed rate that the lines give last. -/
def lastFeed? [Scalar α] (cs : List (Command α)) : Option α := (cs.filterMap feed?).getLast?

private theorem lastFeed?_append [Scalar α] (front back : List (Command α)) :
    lastFeed? (front ++ back) = (lastFeed? back).or (lastFeed? front) := by
  rw [lastFeed?, List.filterMap_append, List.getLast?_append]
  rfl

private theorem lastFeed?_cons [Scalar α] (c : Command α) (cs : List (Command α)) :
    lastFeed? (c :: cs) = (lastFeed? cs).or c.feed? := by
  rw [← List.singleton_append, lastFeed?_append]
  cases given : c.feed? <;> simp [lastFeed?, given]

end Command

/-- The machine runs at the rate that was given last. -/
theorem Machine.feedRate_replay [Scalar α] {m last : Machine α} {cs : List (Command α)}
    (replayed : m.replay cs = .ok last) : last.feedRate = (Command.lastFeed? cs).or m.feedRate := by
  induction cs generalizing m with
  | nil => cases replayed; rfl
  | cons c cs ih =>
    obtain ⟨next, stepped, rest⟩ := replay_cons_eq_ok_iff.mp replayed
    rw [ih rest, after_feedRate stepped, Command.lastFeed?_cons, Option.or_assoc]

/-- The last of the feed rates at which the moves are known to run. -/
def Move.lastRate? (moves : List (Move α)) : Option α := (moves.filterMap (·.feedRate)).getLast?

private theorem Move.lastRate?_cons (m : Move α) (moves : List (Move α)) :
    lastRate? (m :: moves) = (lastRate? moves).or m.feedRate := by
  rw [lastRate?, ← List.singleton_append, List.filterMap_append, List.getLast?_append]
  cases known : m.feedRate <;> simp [lastRate?, known]

/-- The feed rate that a tapered loop leaves: the one of the last move of its section that does not stand still, if
    that is known, and otherwise the one at which the loop ended. -/
def Weave.pace [Scalar α] (tuning : Tuning α) (run : Run α) (segments : List (Segment α)) : Option α :=
  (Move.lastRate? (Segment.longMoves (taperSection tuning segments))).or run.finish.feedRate

end

theorem Drawn.feedRate {stroke? : Step Exact → Option (Stroke Exact)} {m last : Machine Exact}
    {steps : List (Step Exact)} {ts : List (Transition Exact)} (drawn : Drawn stroke? m steps ts last) :
    last.feedRate = (Move.lastRate? ((steps.filterMap stroke?).map (·.move))).or m.feedRate := by
  induction drawn with
  | nil => rfl
  | @other m next _ c _ _ repeated idle stepped _ ih =>
    rw [Machine.after_of_isIdle m idle, Except.ok.injEq] at stepped
    subst stepped
    rw [List.filterMap_cons_none repeated]
    exact ih
  | @stroke m next _ c _ s _ _ drawn stepped draws _ ih =>
    have rate : next.feedRate = s.move.feedRate.or m.feedRate := draws.feedRate
    rw [List.filterMap_cons_some drawn, List.map_cons, Move.lastRate?_cons, ih, rate, Option.or_assoc]
  | skip omitted _ ih =>
    rw [List.filterMap_cons_none omitted]
    exact ih

private theorem Woven.feedRate_last {tuning : Tuning Exact} {floor : Exact} {run : Run Exact} {segments : List (Segment Exact)}
    (w : Woven tuning floor run segments) : w.last.feedRate = Weave.pace tuning run segments := by
  obtain ⟨_, _, _, _, kept⟩ := Weave.declared_frame w.fallen run.finish.extrusion
  rw [last, kept, w.falls.feedRate, w.moves_fall, w.agree.feedRate, Weave.pace]

section
variable {p : Pass Exact} {floor : Exact} {here here' there there' : Machine Exact} {blocks : List (Block Exact)}
  {loops : List (Loop Exact)}

theorem Weave.feedRate_of_tapered {run : Run Exact} {segments : List (Segment Exact)} {commands : List (Command Exact)}
    {last : Machine Exact} (usable : p.tuning.check = .ok ())
    (path : Segment.path? run.start run.commands = .ok (some segments))
    (tapered : weave p.tuning floor p.markers run segments = .ok (.tapered commands))
    (replayed : run.start.replay commands = .ok last) : last.feedRate = pace p.tuning run segments := by
  obtain ⟨w, lines⟩ := exists_woven usable path tapered
  cases (lines ▸ (w.passage p.markers).replay).symm.trans replayed
  exact w.feedRate_last

namespace Chain

/-- Where all loops that are replaced leave the rate at which they ended, the machines run at one rate. -/
theorem feedRate_eq (chain : Chain p floor there blocks loops there') (usable : p.tuning.check = .ok ())
    (same : there.feedRate = here.feedRate) (replayed : here.replay (blocks.flatMap Block.source) = .ok here')
    (steady : ∀ loop ∈ loops, Weave.pace p.tuning loop.run loop.path = loop.run.finish.feedRate) :
    there'.feedRate = here'.feedRate := by
  induction chain generalizing here with
  | nil => cases replayed; exact same
  | untouched kept followed _ ih =>
    rw [List.flatMap_cons] at replayed
    obtain ⟨next, source, rest⟩ := Machine.replay_append_eq_ok_iff.mp replayed
    refine ih ?_ rest steady
    rw [Machine.feedRate_replay followed, Machine.feedRate_replay source, same]
  | @tapered run segments _ _ _ _ _ _ _ path woven followed _ ih =>
    rw [List.flatMap_cons] at replayed
    obtain ⟨next, source, rest⟩ := Machine.replay_append_eq_ok_iff.mp replayed
    have lines : here.replay run.commands = .ok next := source
    obtain ⟨first, others⟩ := List.forall_mem_cons.mp steady
    refine ih ?_ rest others
    rw [Weave.feedRate_of_tapered usable path woven followed, Machine.feedRate_replay lines, ← same]
    exact first.trans (Machine.feedRate_replay run.replays)

/-- Over untouched blocks no loop is replaced, and the machine meets the lines of the program. -/
private theorem of_untouched (chain : Chain p floor there blocks loops there') (untouched : ∀ b ∈ blocks, b.IsUntouched) :
    loops = [] ∧ there.replay (blocks.flatMap Block.source) = .ok there' := by
  induction chain with
  | nil => exact ⟨rfl, rfl⟩
  | untouched _ followed _ ih =>
    obtain ⟨_, others⟩ := List.forall_mem_cons.mp untouched
    obtain ⟨none, rest⟩ := ih others
    exact ⟨none, Machine.replay_append_eq_ok_iff.mpr ⟨_, followed, rest⟩⟩
  | tapered =>
    obtain ⟨kept, _⟩ := List.forall_mem_cons.mp untouched
    exact absurd kept Block.not_isUntouched_tapered

/-- Behind a loop that is replaced the machine runs at the rate that the loop leaves, until a line gives another. -/
private theorem feedRate_behind {b : Block Exact} (chain : Chain p floor there (b :: blocks) loops there')
    (usable : p.tuning.check = .ok ()) (replaced : b.isReplaced = true) (untouched : ∀ d ∈ blocks, d.IsUntouched) :
    ∃ loop, loops = [loop] ∧ loop.run.start = there ∧ loop.run.commands = b.source ∧
      there'.feedRate =
        (Command.lastFeed? (blocks.flatMap Block.source)).or (Weave.pace p.tuning loop.run loop.path) := by
  cases chain with
  | untouched kept =>
    cases b with
    | single => cases replaced
    | run _ _ verdict =>
      cases verdict with
      | tapered => exact absurd kept Block.not_isUntouched_tapered
      | _ => cases replaced
  | tapered _ path woven followed rest =>
    obtain ⟨rfl, lines⟩ := rest.of_untouched untouched
    refine ⟨_, rfl, rfl, rfl, ?_⟩
    rw [Machine.feedRate_replay lines, Weave.feedRate_of_tapered usable path woven followed]

end Chain
end

/-- What is known of the feed rate behind the first lines `taken` of an untouched block, which the blocks `front`
    precede: the machine is `here` in the program, and `there` in what was written for it. -/
structure Paced (p : Pass Exact) (floor : Exact) (front : List (Block Exact)) (taken : List (Command Exact))
    (loops : List (Loop Exact)) (here there : Machine Exact) : Prop where
  source : Machine.powerOn.replay (front.flatMap Block.source ++ taken) = .ok here
  emitted : Machine.powerOn.replay (front.flatMap Block.emitted ++ taken) = .ok there
  chain : Chain p floor Machine.powerOn (front ++ taken.map .single) loops there
  /-- The rate is that of the program if all loops replaced so far leave the rate at which they ended. -/
  steady : (∀ loop ∈ loops, Weave.pace p.tuning loop.run loop.path = loop.run.finish.feedRate) →
    there.feedRate = here.feedRate
  /-- Behind the last loop that was replaced it is the rate that a line gives, or else the one that the loop leaves; so
      it is that of the program exactly if a line gives one or the loop leaves the one that the program has there. -/
  behind : ∀ done b rest m, front = done ++ b :: rest → b.isReplaced = true → (∀ d ∈ rest, d.IsUntouched) →
    Machine.powerOn.replay ((done ++ [b]).flatMap Block.source) = .ok m →
      ∃ before loop, loops = before ++ [loop] ∧ loop.run.commands = b.source ∧
        Machine.powerOn.replay (done.flatMap Block.emitted) = .ok loop.run.start ∧
        there.feedRate =
          (Command.lastFeed? (rest.flatMap Block.source ++ taken)).or (Weave.pace p.tuning loop.run loop.path) ∧
        (there.feedRate = here.feedRate ↔
          Command.lastFeed? (rest.flatMap Block.source ++ taken) ≠ none ∨
            Weave.pace p.tuning loop.run loop.path = m.feedRate)

section
variable {p : Pass Exact} {floor : Exact}

/-- The lines of an untouched block are met one by one. -/
private theorem Block.flatMap_singles (front : List (Block Exact)) (taken : List (Command Exact)) :
    (front ++ taken.map Block.single).flatMap Block.source = front.flatMap Block.source ++ taken ∧
      (front ++ taken.map Block.single).flatMap Block.emitted = front.flatMap Block.emitted ++ taken := by
  rw [List.flatMap_append, List.flatMap_append, List.flatMap_map, List.flatMap_map]
  exact ⟨congrArg (_ ++ ·) (List.flatMap_singleton' taken), congrArg (_ ++ ·) (List.flatMap_singleton' taken)⟩

private theorem Block.isUntouched_singles {rest : List (Block Exact)} (untouched : ∀ d ∈ rest, d.IsUntouched)
    (taken : List (Command Exact)) : ∀ d ∈ rest ++ taken.map Block.single, d.IsUntouched := by
  intro d mem
  rcases List.mem_append.mp mem with old | line
  · exact untouched d old
  · obtain ⟨c, _, rfl⟩ := List.mem_map.mp line
    exact Block.isUntouched_single c

private theorem Option.or_eq_or_iff {β : Type} {given own own' : Option β} :
    given.or own = given.or own' ↔ given ≠ none ∨ own = own' := by
  cases given <;> simp

private theorem Paced.of_chain {front : List (Block Exact)} {taken : List (Command Exact)} {loops : List (Loop Exact)}
    {here there : Machine Exact} (usable : p.tuning.check = .ok ())
    (chain : Chain p floor Machine.powerOn (front ++ taken.map .single) loops there)
    (source : Machine.powerOn.replay (front.flatMap Block.source ++ taken) = .ok here) :
    Paced p floor front taken loops here there where
  source
  emitted := (Block.flatMap_singles front taken).2 ▸ chain.replay
  chain
  steady := chain.feedRate_eq usable rfl ((Block.flatMap_singles front taken).1.symm ▸ source)
  behind done b rest m parts replaced untouched reached := by
    subst parts
    rw [List.append_assoc, List.cons_append] at chain
    obtain ⟨before, behind, mid, rfl, first, second⟩ := chain.of_append
    obtain ⟨loop, rfl, rfl, lines, rate⟩ :=
      second.feedRate_behind usable replaced (Block.isUntouched_singles untouched taken)
    rw [(Block.flatMap_singles rest taken).1] at rate
    have whole : (done ++ b :: rest).flatMap Block.source ++ taken =
        (done ++ [b]).flatMap Block.source ++ (rest.flatMap Block.source ++ taken) := by simp
    rw [whole] at source
    obtain ⟨m', reached', onward⟩ := Machine.replay_append_eq_ok_iff.mp source
    cases reached.symm.trans reached'
    refine ⟨before, loop, rfl, lines, first.replay, rate, ?_⟩
    rw [rate, Machine.feedRate_replay onward]
    exact Option.or_eq_or_iff

end

/-- Behind every untouched line the machine runs at the rate that the last line with one gives, or at the one that the
    last loop leaves which was replaced. -/
theorem Pass.paced_of_rewrite {p : Pass Exact} {commands : List (Command Exact)} {rewritten : Rewritten Exact}
    (written : p.rewrite commands = .ok rewritten) :
    ∃ floor blocks, Floor.ofCommands commands = .ok floor ∧ p.blocks floor commands = .ok blocks ∧
      blocks.flatMap Block.source = commands ∧ blocks.flatMap Block.emitted = rewritten.commands ∧
        ∀ front b back taken left, blocks = front ++ b :: back → b.IsUntouched → b.source = taken ++ left →
          ∃ loops here there, Paced p floor front taken loops here there := by
  obtain ⟨usable, _, floor, lowest, blocks, cut, rfl⟩ := rewrite_eq_ok_iff.mp written
  obtain ⟨source, _, _, chain⟩ := chain_of_blocks cut
  obtain ⟨_, _, _, replayed, _⟩ := Floor.bounds_of_ofCommands lowest
  refine ⟨floor, blocks, lowest, cut, source, rfl, fun front b back taken left split kept began => ?_⟩
  subst split
  obtain ⟨loops, there, met⟩ := chain.taken kept began
  have whole : commands = (front.flatMap Block.source ++ taken) ++ (left ++ back.flatMap Block.source) := by
    rw [← source, List.flatMap_append, List.flatMap_cons, began, List.append_assoc, List.append_assoc]
  rw [whole] at replayed
  obtain ⟨here, reached, _⟩ := Machine.replay_append_eq_ok_iff.mp replayed
  exact ⟨loops, here, there, .of_chain usable met reached⟩

namespace Lane

/-- The line that moves along the lane, pushes filament and gives a feed rate. -/
noncomputable def rush (x e f : ℝ) : Command Exact :=
  .ofWords .linearMove ⟨[('X', .real x), ('E', .real e), ('F', .real f)]⟩

noncomputable def running (m : Machine Exact) (f : ℝ) : Machine Exact := { m with feedRate := some (.real f) }

section
variable {a d d' f f' : ℝ}

/-- The path of a shuttle that goes out at one rate and comes back at another. -/
noncomputable def rushPath (a d d' f f' : ℝ) : List (Segment Exact) :=
  [.move { move 0 a d with feedRate := some (.real f) }, .move { move a 0 d' with feedRate := some (.real f') }]

private theorem after_rush {m : Machine Exact} {x e : ℝ} {extruded : Bool} {rate : Option Exact} (x' f : ℝ) {number e' : ℝ}
    (here : m = { spot .relative x 0 e 0 extruded with feedRate := rate }) (counts : e + number = e') (grows : e < e') :
    m.after (rush x' number f) = .ok (running (spot .relative x' 0 e' 0 true) f) := by
  subst here counts
  have words : ∀ w : Words Exact, w = ⟨[('X', .real x'), ('E', .real number), ('F', .real f)]⟩ →
      w.get? 'E' = some (.real number) ∧ w.get? 'F' = some (.real f) ∧ w.axis? .x = some (.real x') ∧
        w.axis? .y = none ∧ w.axis? .z = none := by
    rintro w rfl
    exact ⟨rfl, rfl, rfl, rfl, rfl⟩
  simp_all [Machine.after, Machine.step, rush, Command.ofWords, spot, running, Machine.move, Point.ofFn, Machine.target,
    Machine.extrusionTarget, Point.get, point]

private theorem ofStep?_rush {a b e e' d f number : ℝ} {extruded : Bool} {rate : Option Exact} (pushed : e' - e = d) :
    Segment.ofStep? (.real 0) { spot .relative a 0 e 0 extruded with feedRate := rate }
        (running (spot .relative b 0 e' 0 true) f) (rush b number f) =
      some (.move { move a b d with feedRate := some (.real f) }) := by
  have slow := @ofStep?_draw .relative e 0 a b d extruded true number e' pushed
  obtain ⟨absolute, known, ⟨_, level, same⟩ | ⟨other, _⟩⟩ := Segment.ofStep?_eq_some_iff.mp slow
  · refine Segment.ofStep?_eq_some_iff.mpr ⟨absolute, known, .inl ⟨rfl, level, ?_⟩⟩
    exact congrArg (fun m : Move Exact => Segment.move { m with feedRate := some (.real f) }) (Segment.move.inj same)
  · cases other

private theorem rushed_out (out : 0 < d) :
    (spot .relative 0 0 0 0 false).after (rush a d f) = .ok (running (spot .relative a 0 d 0 true) f) :=
  after_rush a f rfl (zero_add d) out

private theorem rushed_back (back : 0 < d') : (running (spot .relative a 0 d 0 true) f).after (rush 0 d' f') =
    .ok (running (spot .relative 0 0 (d + d') 0 true) f') :=
  after_rush 0 f' rfl rfl (lt_add_of_pos_right d back)

private theorem traced_rush (out : 0 < d) (back : 0 < d') :
    Traced (.real 0) (spot .relative 0 0 0 0 false) [rush a d f, rush 0 d' f'] (rushPath a d d' f f')
      (running (spot .relative 0 0 (d + d') 0 true) f') :=
  .cons (rushed_out out) (ofStep?_rush (sub_zero d))
    (.cons (rushed_back back) (ofStep?_rush (add_sub_cancel_left d d')) (.nil _))

noncomputable def rushed (a f f' : ℝ) {d d' : ℝ} (out : 0 < d) (back : 0 < d') : Run Exact :=
  ⟨_, [rush a d f, rush 0 d' f'], _, (traced_rush out back).replay⟩

private theorem path_rush (out : 0 < d) (back : 0 < d') :
    Segment.path? (rushed a f f' out back).start (rushed a f f' out back).commands =
      .ok (some (rushPath a d d' f f')) :=
  path_of_traced (traced_rush out back)

variable (long : 3 / 2 ≤ a)
include long

/-- A move is as long at one feed rate as at another. -/
private theorem overlap_rush : Weave.overlap (tuning 1) (rushPath a d d' f f') = .real 1 :=
  @overlap_shuttle a d d' long

private theorem cut_rush :
    (Weave.cut (tuning 1) (rushPath a d d' f f')).taper =
      [.move { move 0 1 (d / a) with feedRate := some (.real f) }] := by
  have out : Move.length { move 0 a d with feedRate := some (Exact.real f) } = .real a := length_out (d := d) long
  have nonzero : a ≠ 0 := by linarith
  have fraction : Scalar.clamp ((Exact.real 1 - Exact.real 0) / Exact.real a) = .real (1 / a) := by
    rw [Exact.real_sub, Exact.real_div nonzero, Exact.clamp_real, sub_zero,
      min_eq_left ((div_le_one (by linarith)).mpr (by linarith)), max_eq_right (by positivity)]
  have part : (move 0 a d).upTo (.real (1 / a)) = move 0 1 (d / a) := by
    rw [upTo_move, zero_add, sub_zero, mul_one_div_cancel nonzero, mul_one_div]
  rw [Weave.cut, overlap_rush long, Cut.ofLength, rushPath, Cut.resume, out, if_pos]
  · rw [Exact.zero_eq, fraction]
    exact congrArg (fun m : Move Exact => [Segment.move { m with feedRate := some (.real f) }]) part
  · rw [Exact.zero_eq, Exact.real_add, Exact.real_le, Segment.leastLength, Exact.ofPlaces_eq, Exact.real_lt]
    constructor <;> linarith

/-- The section is the beginning of the way out, and is travelled at its rate. -/
private theorem pace_rush (run : Run Exact) : Weave.pace (tuning 1) run (rushPath a d d' f f') = some (.real f) := by
  have unit : Move.length { move 0 1 (d / a) with feedRate := some (Exact.real f) } = .real 1 := by
    show (move 0 1 (d / a)).length = _
    rw [length_move]
    norm_num
  have whole : Weave.taperSection (tuning 1) (rushPath a d d' f f') =
      [.move { move 0 1 (d / a) with feedRate := some (.real f) }] := by
    rw [Weave.taperSection, cut_rush long]
    simp [Segment.resample, Segment.steps, Move.steps, unit, tuning]
  have least : Segment.leastLength < Exact.real 1 := by
    rw [Segment.leastLength, Exact.ofPlaces_eq, Exact.real_lt]
    norm_num
  simp [Weave.pace, whole, Segment.longMoves, Segment.moves, Segment.move?, unit, least, Move.lastRate?]

/-- The shuttle is tapered, and leaves the rate at which it goes out. -/
private theorem weave_rush (f f' : ℝ) (out : 0 < d) (back : 0 < d') (markers : Bool) :
    ∃ commands last,
      Weave.weave (tuning 1) 0 markers (rushed a f f' out back) (rushPath a d d' f f') = .ok (.tapered commands) ∧
        (rushed a f f' out back).start.replay commands = .ok last ∧ last.feedRate = some (.real f) := by
  have usable : (tuning 1).check = .ok () := check_tuning one_pos
  obtain ⟨outcome, woven⟩ := Weave.exists_weave markers usable ⟨0, Exact.zero_eq⟩ (path_rush (a := a) out back)
  have unaltered : ∀ step ∈ Weave.steps (tuning 1) (rushPath a d d' f f'), step.alteration? = none := by
    rw [Weave.alteration?_eq_none_iff, cut_rush long]
    simp
  obtain ⟨commands, rfl⟩ := (Weave.exists_tapered_iff woven).mpr unaltered
  obtain ⟨w, lines⟩ := Weave.exists_woven usable (path_rush out back) woven
  exact ⟨commands, _, woven, lines ▸ (w.passage markers).replay, w.feedRate_last.trans (pace_rush long _)⟩

end

/-- A line that gives no number for the filament does not extrude. -/
private theorem silent_lift (m : Machine Exact) (z : ℝ) : m.wouldExtrude (lift z) = .ok false := by
  have kept : m.extrusionTarget ⟨[('Z', .real z)]⟩ = m.extrusion := by
    have bare : (⟨[('Z', .real z)]⟩ : Words Exact).get? 'E' = none := rfl
    unfold Machine.extrusionTarget
    cases m.extrusionMode <;> simp [bare]
  show Except.ok (decide (m.extrusion < m.extrusionTarget ⟨[('Z', .real z)]⟩)) = _
  rw [kept, decide_eq_false (Exact.lt_irrefl _)]

private theorem after_lift_running {x z e f : ℝ} {extruded : Bool} (z' : ℝ) :
    (running (spot .relative x z e 0 extruded) f).after (lift z') = .ok (running (spot .relative x z' e 0 false) f) :=
  congrArg (Except.map (running · f)) (@after_lift .relative x z e 0 extruded z')

private theorem lower_running {x z e f : ℝ} {extruded : Bool} (above : 0 ≤ z) :
    Floor.lower 0 (running (spot .relative x z e 0 extruded) f) = .ok (0 : Exact) :=
  @lower_spot .relative x z e 0 extruded above

/-- The lines of a shuttle that goes out at one rate and comes back at another, after which the head is lifted. -/
noncomputable def rushTrip (a d d' f f' z : ℝ) : List (Command Exact) := [home, rush a d f, rush 0 d' f', lift z]

private theorem rewrite_rush {a d d' z : ℝ} (f f' : ℝ) (long : 3 / 2 ≤ a) (out : 0 < d) (back : 0 < d') (above : 0 ≤ z)
    (markers : Bool) :
    ∃ commands last, (rushed a f f' out back).start.replay commands = .ok last ∧ last.feedRate = some (.real f) ∧
      Floor.ofCommands (rushTrip a d d' f f' z) = .ok 0 ∧
        (⟨tuning 1, markers⟩ : Pass Exact).blocks 0 (rushTrip a d d' f f' z) =
            .ok [.single home, .run 2 [rush a d f, rush 0 d' f'] (.tapered commands), .single (lift z)] ∧
          ∃ rewritten, (⟨tuning 1, markers⟩ : Pass Exact).rewrite (rushTrip a d d' f f' z) = .ok rewritten := by
  obtain ⟨commands, last, woven, replayed, rate⟩ := weave_rush long f f' out back markers
  obtain ⟨lifted, onward⟩ : ∃ lifted, last.after (lift z) = .ok lifted := ⟨_, rfl⟩
  have admitted : Admission.check (rushTrip a d d' f f' z) = .ok () := by
    simp [rushTrip, Admission.check, Admission.objection?, home, rush, lift, Command.ofWords, Command.leadingToken?,
      Words.contains, Words.get?]
  have would : (rushed a f f' out back).start.wouldExtrude (rush a d f) = .ok true := by
    rw [Machine.wouldExtrude, if_pos (by rfl)]
    exact congrArg (Except.map (·.extruded)) (rushed_out out)
  have closed : (rushed a f f' out back).isClosed (.real 1) = true := by
    show (shuttle a out back).isClosed (.real 1) = true
    exact isClosed_of_spot rfl rfl
  have length : ¬ Segment.pathLength (rushPath a d d' f f') < .real 1 := by
    show ¬ Segment.pathLength (shuttlePath a d d') < _
    rw [pathLength_shuttle long, Exact.real_lt]
    linarith
  refine ⟨commands, last, replayed, rate, ?_⟩
  refine rewrite_trip (rushed a f f' out back) [⟨last, lift z, lifted⟩] one_pos rfl
    (.cons (rushed_out out) (.cons (rushed_back back) (.nil _))) rfl ?_ rfl would closed (path_rush out back) length
    woven replayed (.cons (after_lift_running z) (.nil _)) rfl (.cons onward (.nil _)) rfl
    (List.forall_mem_singleton.mpr (silent_lift last z)) ?_ admitted
  · simp only [List.forall_mem_cons]
    exact ⟨rfl, rfl, List.forall_mem_nil _⟩
  · simp only [List.cons_append, List.nil_append, List.forall_mem_cons]
    exact ⟨lower_running le_rfl, lower_running le_rfl, lower_running above, List.forall_mem_nil _⟩

end Lane

/-- Behind a shuttle that went out fast the head is lifted as fast. -/
theorem Pass.paced_of_rush :
    ∃ rewritten, (⟨Lane.tuning 1, true⟩ : Pass Exact).rewrite (Lane.rushTrip 3 3 3 1200 600 1) = .ok rewritten ∧
      ∃ front loops here there, Paced ⟨Lane.tuning 1, true⟩ 0 front [Lane.lift 1] loops here there ∧
        front.flatMap Block.source = [Lane.home, Lane.rush 3 3 1200, Lane.rush 0 3 600] := by
  obtain ⟨commands, _, _, _, lowest, cut, rewritten, written⟩ :=
    Lane.rewrite_rush (a := 3) (z := 1) 1200 600 (by norm_num) three_pos three_pos zero_le_one true
  obtain ⟨floor, blocks, lowest', cut', _, _, paced⟩ := paced_of_rewrite written
  cases lowest.symm.trans lowest'
  cases cut.symm.trans cut'
  obtain ⟨loops, here, there, paced⟩ :=
    paced [.single Lane.home, .run 2 [Lane.rush 3 3 1200, Lane.rush 0 3 600] (.tapered commands)]
      (.single (Lane.lift 1)) [] [Lane.lift 1] [] rfl (Block.isUntouched_single _) rfl
  exact ⟨rewritten, written, _, loops, here, there, paced, rfl⟩

/-- A line does not always run at the rate that it has in the program: behind a shuttle that went out fast and came back
    slowly the head is lifted fast. -/
theorem Pass.not_paced :
    ¬ ∀ (p : Pass Exact) (commands : List (Command Exact)) (rewritten : Rewritten Exact) (floor : Exact)
      (blocks front back : List (Block Exact)) (c : Command Exact) (here there : Machine Exact),
      p.rewrite commands = .ok rewritten → Floor.ofCommands commands = .ok floor → p.blocks floor commands = .ok blocks →
        blocks = front ++ .single c :: back → c.isMotion = true →
          Machine.powerOn.replay (front.flatMap Block.source ++ [c]) = .ok here →
            Machine.powerOn.replay (front.flatMap Block.emitted ++ [c]) = .ok there →
              there.feedRate = here.feedRate := by
  intro paced
  obtain ⟨commands, last, replayed, rate, lowest, cut, rewritten, written⟩ :=
    Lane.rewrite_rush (a := 3) (z := 1) 1200 600 (by norm_num) three_pos three_pos zero_le_one true
  have source : Machine.powerOn.replay (Lane.home :: ([Lane.rush 3 3 1200, Lane.rush 0 3 600] ++ [Lane.lift 1])) =
      .ok (Lane.running (Lane.spot .relative 0 1 (3 + 3) 0 false) 600) :=
    Machine.replay_cons_eq_ok_iff.mpr ⟨_, Lane.after_home, Machine.replay_append_eq_ok_iff.mpr
      ⟨_, (Lane.traced_rush three_pos three_pos).replay,
        Machine.replay_cons_eq_ok_iff.mpr ⟨_, Lane.after_lift_running 1, rfl⟩⟩⟩
  obtain ⟨out, lifted⟩ : ∃ out, last.after (Lane.lift 1) = .ok out := ⟨_, rfl⟩
  have emitted : Machine.powerOn.replay (Lane.home :: (commands ++ [Lane.lift 1])) = .ok out :=
    Machine.replay_cons_eq_ok_iff.mpr ⟨_, Lane.after_home, Machine.replay_append_eq_ok_iff.mpr
      ⟨_, replayed, Machine.replay_cons_eq_ok_iff.mpr ⟨_, lifted, rfl⟩⟩⟩
  have same := paced _ _ rewritten 0 _
    [.single Lane.home, .run 2 [Lane.rush 3 3 1200, Lane.rush 0 3 600] (.tapered commands)] [] (Lane.lift 1) _ _ written
    lowest cut rfl rfl source (by simpa [Block.emitted] using emitted)
  have kept : out.feedRate = last.feedRate := Machine.after_feedRate lifted
  rw [kept, rate] at same
  have other : (1200 : ℝ) = 600 := Exact.real.inj (Option.some.inj same)
  norm_num at other

end Seam
