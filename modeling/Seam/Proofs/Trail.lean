import Seam.Proofs.Height
import Seam.Proofs.Trip

/-!
A program and what is written for it, line by line. The machine that meets the
rewritten program is ahead of the one that meets the program by the slips of the
loops replaced so far, each of them carried through the lines behind its loop
(`Trail`, `Chain.trail`). Behind every untouched line it stands where that lead puts
it (`Pass.strayed_of_rewrite`), and a loop whose section is even adds nothing to the
height (`Chain.height_eq_zero`).
-/
namespace Seam

/-- How far the machine that meets what is emitted for the blocks is ahead, on every
    axis, of the one that meets their lines, which passes from the first machine to
    the second: every line carries the lead on, and a loop that is replaced adds its
    slip. -/
inductive Trail (p : Pass Exact) (floor : Exact) :
    Machine Exact → (Axis → Lead) → List (Block Exact) → List (Loop Exact) → Machine Exact → (Axis → Lead) → Prop
  | nil (here : Machine Exact) (leads : Axis → Lead) : Trail p floor here leads [] [] here leads
  | untouched {here next last : Machine Exact} {leads ends : Axis → Lead} {b : Block Exact} {blocks : List (Block Exact)}
      {loops : List (Loop Exact)} (kept : b.IsUntouched) (replayed : here.replay b.source = .ok next)
      (rest : Trail p floor next (fun a => (leads a).through (.axis a) here.positioning b.source) blocks loops last ends) :
      Trail p floor here leads (b :: blocks) loops last ends
  | tapered {here next last : Machine Exact} {leads ends : Axis → Lead} {run : Run Exact}
      {segments : List (Segment Exact)} {line : Nat} {commands : List (Command Exact)} {blocks : List (Block Exact)}
      {loops : List (Loop Exact)} (replayed : here.replay run.commands = .ok next)
      (rest : Trail p floor next (fun a => ((leads a).through (.axis a) here.positioning run.commands).add
        (Weave.slip p.tuning floor run segments a)) blocks loops last ends) :
      Trail p floor here leads (.run line run.commands (.tapered commands) :: blocks) (⟨run, segments⟩ :: loops)
        last ends

section
variable {p : Pass Exact} {floor : Exact} {here here' there there' : Machine Exact} {leads ends : Axis → Lead}
  {blocks : List (Block Exact)} {loops : List (Loop Exact)}

/-- A tapered loop leaves the machine ahead by its slip. -/
private theorem Weave.ahead_of_tapered {run : Run Exact} {segments : List (Segment Exact)} {commands : List (Command Exact)}
    {last : Machine Exact} (usable : p.tuning.check = .ok ()) (bounded : floor.IsReal)
    (path : Segment.path? run.start run.commands = .ok (some segments))
    (tapered : weave p.tuning floor p.markers run segments = .ok (.tapered commands))
    (replayed : run.start.replay commands = .ok last) (a : Axis) :
    Machine.Ahead (.axis a) (slip p.tuning floor run segments a) run.finish last := by
  obtain ⟨w, lines⟩ := exists_woven usable path tapered
  cases (lines ▸ (w.passage p.markers).replay).symm.trans replayed
  exact w.ahead_last bounded a

/-- The leads follow their trail through the blocks. -/
theorem Chain.trail (chain : Chain p floor there blocks loops there') (usable : p.tuning.check = .ok ())
    (bounded : floor.IsReal) (ahead : ∀ a, Machine.Ahead (.axis a) (leads a) here there)
    (replayed : here.replay (blocks.flatMap Block.source) = .ok here') :
    ∃ ends, Trail p floor here leads blocks loops here' ends ∧ ∀ a, Machine.Ahead (.axis a) (ends a) here' there' := by
  induction chain generalizing here leads with
  | nil => cases replayed; exact ⟨leads, .nil _ _, ahead⟩
  | untouched kept followed _ ih =>
    rw [List.flatMap_cons] at replayed
    obtain ⟨next, source, rest⟩ := Machine.replay_append_eq_ok_iff.mp replayed
    obtain ⟨ends, trail, apart⟩ := ih (fun a => (ahead a).replay source followed) rest
    exact ⟨ends, .untouched kept source trail, apart⟩
  | @tapered run segments line commands _ _ _ _ _ path woven followed _ ih =>
    rw [List.flatMap_cons] at replayed
    obtain ⟨next, source, rest⟩ := Machine.replay_append_eq_ok_iff.mp replayed
    have slipped (a : Axis) := ((ahead a).replay source run.replays).trans
      (Weave.ahead_of_tapered usable bounded path woven followed a)
    obtain ⟨ends, trail, apart⟩ := ih slipped rest
    exact ⟨ends, .tapered source trail, apart⟩

theorem Trail.across {line : Nat} {lines commands : List (Command Exact)} {loop : Loop Exact}
    (trail : Trail p floor here leads (.run line lines (.tapered commands) :: blocks) (loop :: loops) here' ends) :
    ∃ next, here.replay loop.run.commands = .ok next ∧
      Trail p floor next (fun a => ((leads a).through (.axis a) here.positioning loop.run.commands).add
        (Weave.slip p.tuning floor loop.run loop.path a)) blocks loops here' ends := by
  cases trail with
  | untouched kept => exact absurd kept Block.not_isUntouched_tapered
  | tapered source rest => exact ⟨_, source, rest⟩

theorem Trail.of_append {front back : List (Block Exact)} (trail : Trail p floor here leads (front ++ back) loops here' ends) :
    ∃ before behind mid met, Trail p floor here leads front before mid met ∧ Trail p floor mid met back behind here' ends := by
  induction front generalizing here leads loops with
  | nil => exact ⟨[], loops, here, leads, .nil .., trail⟩
  | cons b front ih =>
    cases trail with
    | untouched kept source rest =>
      obtain ⟨_, _, _, _, first, second⟩ := ih rest
      exact ⟨_, _, _, _, .untouched kept source first, second⟩
    | tapered source rest =>
      obtain ⟨_, _, _, _, first, second⟩ := ih rest
      exact ⟨_, _, _, _, .tapered source first, second⟩

theorem Trail.replay (trail : Trail p floor here leads blocks loops here' ends) :
    here.replay (blocks.flatMap Block.source) = .ok here' := by
  induction trail with
  | nil => rfl
  | untouched _ source _ ih => exact Machine.replay_append_eq_ok_iff.mpr ⟨_, source, ih⟩
  | tapered source _ ih => exact Machine.replay_append_eq_ok_iff.mpr ⟨_, source, ih⟩

/-- Over untouched blocks a lead is carried through their lines. -/
private theorem Trail.eq_through (trail : Trail p floor here leads blocks loops here' ends)
    (untouched : ∀ b ∈ blocks, b.IsUntouched) (a : Axis) :
    ends a = (leads a).through (.axis a) here.positioning (blocks.flatMap Block.source) := by
  induction trail with
  | nil => rfl
  | untouched _ source _ ih =>
    obtain ⟨_, others⟩ := List.forall_mem_cons.mp untouched
    rw [ih others, List.flatMap_cons]
    exact (Machine.through_append _ source _).symm
  | tapered =>
    obtain ⟨kept, _⟩ := List.forall_mem_cons.mp untouched
    exact absurd kept Block.not_isUntouched_tapered

theorem Weave.slip_offset {tuning : Tuning Exact} {run : Run Exact} {segments : List (Segment Exact)} {a : Axis}
    (undeclared : ∀ c ∈ run.commands, ¬ c.Declares (.axis a)) : (slip tuning floor run segments a).offset = 0 := by
  cases a with
  | z => exact Lead.offset_through rfl fun c mem => undeclared c (List.mem_of_mem_drop mem)
  | _ => rfl

/-- Where no line declares a position, offsets do not come apart. -/
private theorem Trail.offset_eq_zero (trail : Trail p floor here leads blocks loops here' ends) {a : Axis}
    (bare : (leads a).offset = 0) (undeclared : ∀ c ∈ blocks.flatMap Block.source, ¬ c.Declares (.axis a)) :
    (ends a).offset = 0 := by
  induction trail with
  | nil => exact bare
  | untouched _ _ _ ih =>
    obtain ⟨first, others⟩ := List.forall_mem_append.mp (List.flatMap_cons ▸ undeclared)
    exact ih (Lead.offset_through bare first) others
  | @tapered _ _ _ _ _ run _ _ _ _ _ _ _ ih =>
    obtain ⟨first, others⟩ := List.forall_mem_append.mp (List.flatMap_cons ▸ undeclared)
    have none : ∀ c ∈ run.commands, ¬ c.Declares (.axis a) := first
    refine ih ?_ others
    rw [Lead.offset_add, Lead.offset_through bare none, Weave.slip_offset none, add_zero]

/-- Where no line declares a position, the machines agree on an axis that a line sets
    behind the last loop. -/
private theorem Trail.eq_zero_of_settles {done rest : List (Block Exact)} {m : Machine Exact} {a : Axis}
    (trail : Trail p floor here leads (done ++ rest) loops here' ends) (untouched : ∀ b ∈ rest, b.IsUntouched)
    (reached : here.replay (done.flatMap Block.source) = .ok m) (bare : (leads a).offset = 0)
    (undeclared : ∀ c ∈ (done ++ rest).flatMap Block.source, ¬ c.Declares (.axis a))
    (settles : Settles (.axis a) m.positioning (rest.flatMap Block.source)) : ends a = .zero := by
  obtain ⟨_, _, mid, met, first, second⟩ := trail.of_append
  cases first.replay.symm.trans reached
  rw [List.flatMap_append] at undeclared
  obtain ⟨early, late⟩ := List.forall_mem_append.mp undeclared
  rw [second.eq_through untouched a]
  exact Lead.through_of_settles (first.offset_eq_zero bare early) late settles

/-- Where no loop slips on an axis, the machines agree on it. -/
private theorem Trail.eq_zero (trail : Trail p floor here leads blocks loops here' ends) {a : Axis} (agree : leads a = .zero)
    (still : ∀ loop ∈ loops, Weave.slip p.tuning floor loop.run loop.path a = .zero) : ends a = .zero := by
  induction trail with
  | nil => exact agree
  | untouched _ _ _ ih => exact ih (by simp only [agree, Lead.through_zero]) still
  | tapered _ _ ih =>
    obtain ⟨slip, others⟩ := List.forall_mem_cons.mp still
    exact ih (by simp only [agree, Lead.through_zero, Lead.zero_add, slip]) others

/-- A machine that is ahead knows its position exactly if the other one does. -/
theorem Machine.positionKnown_of_ahead (ahead : ∀ a, Ahead (.axis a) (leads a) here there) :
    there.positionKnown = true ↔ here.positionKnown = true := by
  have real (a : Axis) : (there.position.get a).IsReal ↔ (here.position.get a).IsReal := by
    have shifted : there.position.get a = here.position.get a + .real (leads a).logical :=
      congrArg Gauge.logical (ahead a).2
    rw [shifted]
    constructor
    · rintro ⟨r, same⟩
      exact ⟨_, Exact.eq_of_add_real same⟩
    · rintro ⟨r, same⟩
      exact ⟨r + (leads a).logical, by rw [same, Exact.real_add]⟩
  simp only [positionKnown, Point.isKnown, Bool.and_eq_true, Exact.isFinite_iff]
  exact and_congr (and_congr (real .x) (real .y)) (real .z)

/-- The moves of a path do not lead below the floor of the lines that the other machine meets. -/
theorem Floor.Bounds.stop_z {f : ℝ} {run : Run Exact} {segments : List (Segment Exact)}
    (bounds : Floor.Bounds f here run.commands) (ahead : ∀ a, Machine.Ahead (.axis a) (leads a) here run.start)
    (level : leads .z = .zero) (path : Segment.path? run.start run.commands = .ok (some segments)) {m : Move Exact}
    (mem : .move m ∈ segments) : f ≤ m.stop.z.toReal := by
  obtain ⟨_, traced⟩ := Segment.traced_of_path path
  obtain ⟨front, mid, began, reached, stop, absolute, known⟩ := traced.exists_prefix mem
  obtain ⟨next, source⟩ := Machine.exists_replay here reached
  have apart (a : Axis) := (ahead a).replay source reached
  obtain ⟨mode, gauge⟩ := apart .z
  rw [level, Lead.through_zero, Gauge.ahead_zero] at gauge
  have positionKnown : next.positionKnown = true :=
    (Machine.positionKnown_of_ahead apart).mp (Bool.and_eq_true .. ▸ known).1
  obtain ⟨z, height, above⟩ := bounds front next began source (mode.symm.trans absolute) positionKnown
  have same : mid.physical.z = next.physical.z := congrArg Gauge.physical gauge
  rw [← stop, same, height]
  exact above

/-- An even loop leaves the height as it was. -/
private theorem Weave.slip_z_of_even {f : ℝ} {run : Run Exact} {segments : List (Segment Exact)}
    {commands : List (Command Exact)} (usable : p.tuning.check = .ok ()) (lowest : floor = .real f)
    (path : Segment.path? run.start run.commands = .ok (some segments))
    (tapered : weave p.tuning floor p.markers run segments = .ok (.tapered commands)) (even : Even p.tuning segments)
    (above : ∀ m, .move m ∈ segments → f ≤ m.stop.z.toReal) : slip p.tuning floor run segments .z = .zero := by
  obtain ⟨w, _⟩ := exists_woven usable path tapered
  rw [slip, w.sag_eq_zero lowest above even]
  exact Lead.through_zero ..

/-- Where all loops are even, the machines agree on the height. -/
theorem Chain.height_eq_zero {f : ℝ} (chain : Chain p floor there blocks loops there') (usable : p.tuning.check = .ok ())
    (lowest : floor = .real f) (ahead : ∀ a, Machine.Ahead (.axis a) (leads a) here there)
    (level : leads .z = .zero) (bounds : Floor.Bounds f here (blocks.flatMap Block.source))
    (even : ∀ loop ∈ loops, Weave.Even p.tuning loop.path)
    (trail : Trail p floor here leads blocks loops here' ends) : ends .z = .zero := by
  induction chain generalizing here leads with
  | nil => cases trail; exact level
  | untouched kept followed _ ih =>
    cases trail with
    | untouched _ source rest =>
      rw [List.flatMap_cons] at bounds
      exact ih (fun a => (ahead a).replay source followed) (by simp only [level, Lead.through_zero])
        (bounds.behind source) even rest
    | tapered => exact absurd kept Block.not_isUntouched_tapered
  | @tapered run segments _ _ _ _ _ _ _ path woven followed _ ih =>
    obtain ⟨next, source, rest⟩ := trail.across
    rw [List.flatMap_cons] at bounds
    obtain ⟨here_even, others⟩ := List.forall_mem_cons.mp even
    have slip := Weave.slip_z_of_even usable lowest path woven here_even fun m mem =>
      bounds.front.stop_z ahead level path mem
    have slipped (a : Axis) := ((ahead a).replay source run.replays).trans
      (Weave.ahead_of_tapered usable ⟨f, lowest⟩ path woven followed a)
    exact ih slipped (by simp only [level, Lead.through_zero, Lead.zero_add, slip]) (bounds.behind source) others rest

end

/-- What is known behind the first lines `taken` of an untouched block, which the
    blocks `front` precede: the machine is `here` in the program, and `there` in what
    was written for it. -/
structure Strayed (p : Pass Exact) (floor : Exact) (front : List (Block Exact)) (taken : List (Command Exact))
    (loops : List (Loop Exact)) (leads : Axis → Lead) (here there : Machine Exact) : Prop where
  source : Machine.powerOn.replay (front.flatMap Block.source ++ taken) = .ok here
  emitted : Machine.powerOn.replay (front.flatMap Block.emitted ++ taken) = .ok there
  chain : Chain p floor Machine.powerOn (front ++ taken.map .single) loops there
  trail : Trail p floor Machine.powerOn (fun _ => .zero) (front ++ taken.map .single) loops here leads
  /-- The head strays by what is left of the slips, so the same axes are unknown. -/
  physical : ∀ a, there.physical.get a = here.physical.get a + .real (leads a).physical
  /-- It does not stray on an axis on which no loop slips. -/
  agree : ∀ a, (∀ loop ∈ loops, Weave.slip p.tuning floor loop.run loop.path a = .zero) →
    there.physical.get a = here.physical.get a
  /-- It does not stray on an axis that a line has set since the last loop that was
      replaced, by homing or by an absolute target, where no line declares a position. -/
  settled : ∀ a done rest m, front = done ++ rest → (∀ b ∈ rest, b.IsUntouched) →
    Machine.powerOn.replay (done.flatMap Block.source) = .ok m →
      Settles (.axis a) m.positioning (rest.flatMap Block.source ++ taken) →
        (∀ c ∈ front.flatMap Block.source ++ taken, ¬ c.Declares (.axis a)) →
          there.physical.get a = here.physical.get a
  /-- It does not stray in height if all loops are even. -/
  height : (∀ loop ∈ loops, Weave.Even p.tuning loop.path) → there.physical.z = here.physical.z

/-- What is written for a program leads the head behind every untouched line to
    where the program leads it, up to what the loops that were replaced slip. -/
theorem Pass.strayed_of_rewrite {p : Pass Exact} {commands : List (Command Exact)} {rewritten : Rewritten Exact}
    (written : p.rewrite commands = .ok rewritten) :
    ∃ floor blocks, Floor.ofCommands commands = .ok floor ∧ p.blocks floor commands = .ok blocks ∧
      blocks.flatMap Block.source = commands ∧ blocks.flatMap Block.emitted = rewritten.commands ∧
        ∀ front b back taken left, blocks = front ++ b :: back → b.IsUntouched → b.source = taken ++ left →
          ∃ loops leads here there, Strayed p floor front taken loops leads here there := by
  obtain ⟨usable, _, floor, lowest, blocks, cut, rfl⟩ := rewrite_eq_ok_iff.mp written
  obtain ⟨source, _, _, chain⟩ := chain_of_blocks cut
  obtain ⟨f, finish, real, replayed, bounds⟩ := Floor.bounds_of_ofCommands lowest
  refine ⟨floor, blocks, lowest, cut, source, rfl, fun front b back taken left split kept began => ?_⟩
  subst split
  obtain ⟨loops, _, mid, _, before, behind⟩ := chain.of_append
  -- the untouched block, taken line by line
  obtain ⟨there, followed⟩ : ∃ there, mid.replay taken = .ok there := by
    cases behind with
    | untouched _ followed => exact ⟨_, (Machine.replay_append_eq_ok_iff.mp (began ▸ followed)).choose_spec.1⟩
    | tapered => exact absurd (kept _ rfl) (by simp [Verdict.isScarfed])
  have met := before.append (Chain.of_lines followed)
  rw [List.append_nil] at met
  have lines (bs : List (Block Exact)) : (bs ++ taken.map Block.single).flatMap Block.source =
      bs.flatMap Block.source ++ taken := by
    rw [List.flatMap_append, List.flatMap_map]
    exact congrArg (_ ++ ·) (List.flatMap_singleton' taken)
  have written_lines : (front ++ taken.map Block.single).flatMap Block.emitted = front.flatMap Block.emitted ++ taken := by
    rw [List.flatMap_append, List.flatMap_map]
    exact congrArg (_ ++ ·) (List.flatMap_singleton' taken)
  have whole : commands = (front.flatMap Block.source ++ taken) ++ (left ++ back.flatMap Block.source) := by
    rw [← source, List.flatMap_append, List.flatMap_cons, began, List.append_assoc, List.append_assoc]
  rw [whole] at replayed bounds
  obtain ⟨here, reached, _⟩ := Machine.replay_append_eq_ok_iff.mp replayed
  have bounds_here := bounds.front
  rw [← lines] at reached bounds_here
  have agreed (a : Axis) : Machine.Ahead (.axis a) ((fun _ => Lead.zero) a) Machine.powerOn Machine.powerOn := .refl ..
  obtain ⟨leads, trail, ahead⟩ := met.trail usable ⟨f, real⟩ agreed reached
  have physical (a : Axis) : there.physical.get a = here.physical.get a + .real (leads a).physical := by
    have gauge := congrArg Gauge.physical (ahead a).2
    rw [Gauge.physical_ahead] at gauge
    rw [Machine.get_physical, Machine.get_physical]
    exact gauge
  have same {a : Axis} (zero : leads a = .zero) : there.physical.get a = here.physical.get a := by
    rw [physical, zero, Lead.physical, Lead.zero, add_zero, Exact.add_zero]
  refine ⟨loops, leads, here, there, ?_⟩
  constructor
  case source => rw [← lines]; exact reached
  case emitted => rw [← written_lines]; exact met.replay
  case chain => exact met
  case trail => exact trail
  case physical => exact physical
  case agree => exact fun a still => same (trail.eq_zero rfl still)
  case settled =>
    intro a done rest m parts silent met_last settles undeclared
    rw [← lines] at settles undeclared
    rw [parts, List.append_assoc] at trail undeclared
    refine same (trail.eq_zero_of_settles (fun b mem => ?_) met_last rfl undeclared settles)
    rcases List.mem_append.mp mem with old | line
    · exact silent b old
    · obtain ⟨c, _, rfl⟩ := List.mem_map.mp line
      exact Block.isUntouched_single c
  case height => exact fun even => same (a := .z) (met.height_eq_zero usable real agreed rfl bounds_here even trail)

theorem Pass.strayed_of_shuttle :
    ∃ rewritten, (⟨Lane.tuning 1, true⟩ : Pass Exact).rewrite [Lane.home, Lane.draw 3 3, Lane.draw 0 3, Lane.lift 1] =
        .ok rewritten ∧
      ∃ front loops leads here there,
        Strayed ⟨Lane.tuning 1, true⟩ 0 front [Lane.lift 1] loops leads here there := by
  obtain ⟨commands, _, lowest, cut, rewritten, written⟩ :=
    Lane.rewrite_shuttle (a := 3) (z := 1) (by norm_num) three_pos three_pos zero_le_one true
  obtain ⟨floor, blocks, lowest', cut', _, _, strays⟩ := strayed_of_rewrite written
  cases lowest.symm.trans lowest'
  cases cut.symm.trans cut'
  exact ⟨rewritten, written, _, strays [.single Lane.home, .run 2 [Lane.draw 3 3, Lane.draw 0 3] (.tapered commands)]
    (.single (Lane.lift 1)) [] [Lane.lift 1] [] rfl (Block.isUntouched_single _) rfl⟩

/-- The head does not stay where the program leads it: a shuttle leaves it at the end
    of the overlap, and a line behind it that only lifts the head finds it there. -/
theorem Pass.not_unstrayed :
    ¬ ∀ (p : Pass Exact) (commands : List (Command Exact)) (rewritten : Rewritten Exact) (floor : Exact)
      (blocks front back : List (Block Exact)) (b : Block Exact) (here there : Machine Exact),
      p.rewrite commands = .ok rewritten → Floor.ofCommands commands = .ok floor → p.blocks floor commands = .ok blocks →
        blocks = front ++ b :: back → b.IsUntouched →
          Machine.powerOn.replay (front.flatMap Block.source ++ b.source) = .ok here →
            Machine.powerOn.replay (front.flatMap Block.emitted ++ b.source) = .ok there →
              there.physical = here.physical := by
  intro unstrayed
  obtain ⟨commands, replayed, lowest, cut, rewritten, written⟩ :=
    Lane.rewrite_shuttle (a := 3) (z := 1) (by norm_num) three_pos three_pos zero_le_one true
  have source : Machine.powerOn.replay (Lane.home :: ([Lane.draw 3 3, Lane.draw 0 3] ++ [Lane.lift 1])) =
      .ok (Lane.spot .relative 0 1 (3 + 3) 0 false) :=
    Machine.replay_cons_eq_ok_iff.mpr ⟨_, Lane.after_home, Machine.replay_append_eq_ok_iff.mpr
      ⟨_, (Lane.traced_shuttle 3 three_pos three_pos).replay,
        Machine.replay_cons_eq_ok_iff.mpr ⟨_, Lane.after_lift 1, rfl⟩⟩⟩
  have emitted : Machine.powerOn.replay (Lane.home :: (commands ++ [Lane.lift 1])) =
      .ok (Lane.spot .relative 1 1 (3 + 3) 0 false) :=
    Machine.replay_cons_eq_ok_iff.mpr ⟨_, Lane.after_home, Machine.replay_append_eq_ok_iff.mpr
      ⟨_, replayed, Machine.replay_cons_eq_ok_iff.mpr ⟨_, Lane.after_lift 1, rfl⟩⟩⟩
  have same := unstrayed _ _ rewritten 0 _
    [.single Lane.home, .run 2 [Lane.draw 3 3, Lane.draw 0 3] (.tapered commands)] [] (.single (Lane.lift 1)) _ _ written
    lowest cut rfl (Block.isUntouched_single _) source (by simpa [Block.emitted, Block.source] using emitted)
  rw [Lane.physical_spot, Lane.physical_spot, Lane.point, Lane.point, Point.mk.injEq, Exact.real.injEq] at same
  exact one_ne_zero same.1

end Seam
