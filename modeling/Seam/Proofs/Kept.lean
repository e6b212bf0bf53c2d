import Seam.Proofs.Height
import Seam.Proofs.Recount
import Seam.Proofs.Trip

/-!
Filament in a whole program. Behind every block the mode of extrusion is the one of
the program, and the count of filament differs by less than totals may, as long as
every loop that is replaced recounts (`Chain.kept`). Then every untouched line
pushes what it pushes in the program, in the rest of a loop as well as outside of
loops.
-/
namespace Seam

/-- The loop recounts, and reaches no total while the count is off at all. -/
structure Loop.Keeps (tuning : Tuning Exact) (loop : Loop Exact) : Prop where
  recounts : Weave.Recounts tuning loop.run loop.path
  steady : Weave.joinMode tuning loop.run loop.path = .relative →
    Weave.settlement tuning loop.run loop.path = .reached → Weave.shortfall (Weave.steps tuning loop.path) = 0

/-- The program and what was written for it, block by block. The first machine meets
    the program and the second what was written; behind each block they agree on the
    mode of extrusion and nearly on the count, and the untouched lines of the block
    push nearly the same for both. -/
inductive Kept (p : Pass Exact) (floor : Exact) :
    Machine Exact → Machine Exact → List (Block Exact) → List (Loop Exact) → Machine Exact → Machine Exact → Prop
  | nil (here there : Machine Exact) : Kept p floor here there [] [] here there
  | untouched {here there next next' last last' : Machine Exact} {ts us : List (Transition Exact)} {b : Block Exact}
      {blocks : List (Block Exact)} {loops : List (Loop Exact)} (kept : b.IsUntouched)
      (source : Passage here ts next) (source_lines : ts.map (·.line) = b.source)
      (written : Passage there us next') (written_lines : us.map (·.line) = b.source)
      (pushes : List.Forall₂ (fun t u => Exact.Near u.pushed t.pushed) ts us)
      (mode : next'.extrusionMode = next.extrusionMode) (count : Exact.Near next'.extrusion next.extrusion)
      (rest : Kept p floor next next' blocks loops last last') :
      Kept p floor here there (b :: blocks) loops last last'
  | tapered {run : Run Exact} {segments : List (Segment Exact)} {line : Nat} {commands : List (Command Exact)}
      {front rest back source : List (Transition Exact)} {here met next next' last last' : Machine Exact}
      {ts : List (Transition Exact)} {blocks : List (Block Exact)} {loops : List (Loop Exact)}
      (written : Pieces p.tuning floor run segments commands front rest back source next')
      (covered : here.replay (run.commands.take (Weave.cut p.tuning segments).remainder) = .ok met)
      (untouched : Passage met ts next) (lines : ts.map (·.line) = Weave.remainder p.tuning segments run)
      (pushes : List.Forall₂ (fun t u => Exact.Near u.pushed t.pushed) ts rest)
      (mode : next'.extrusionMode = next.extrusionMode) (count : Exact.Near next'.extrusion next.extrusion)
      (behind : Kept p floor next next' blocks loops last last') :
      Kept p floor here run.start (.run line run.commands (.tapered commands) :: blocks) (⟨run, segments⟩ :: loops)
        last last'

namespace Machine

variable {l : Lead} {here there : Machine Exact}

theorem Ahead.near (ahead : Ahead .filament l here there) (counted : here.Counted) (small : |l.logical| < Weave.slack) :
    Exact.Near there.extrusion here.extrusion := by
  obtain ⟨e, count⟩ := counted.1
  have logical : there.extrusion = here.extrusion + .real l.logical := congrArg Gauge.logical ahead.2
  rw [logical, count, Exact.real_add, Exact.near_real_iff, add_sub_cancel_left]
  exact small

end Machine

private theorem Lead.settle_lt {l : Lead} (small : |l.logical| < Weave.slack) (settlement : Settlement) :
    |(l.settle settlement).logical| < Weave.slack := by
  cases settlement with
  | pending => exact small
  | _ => rw [settle, abs_zero]; exact Weave.slack_pos

/-- A motion that extrudes while extrusion is absolute reaches a total. -/
private theorem Command.effect_of_extruded {m next : Machine Exact} {c : Command Exact} (linear : c.isLinear = true)
    (absolute : m.extrusionMode = .absolute) (stepped : m.after c = .ok next) (extruded : next.extruded = true) :
    ∃ v, c.effect .absolute .filament = .reach v := by
  obtain ⟨motion, driven⟩ := effect_of_isLinear linear .absolute .filament
  rw [Machine.after_extruded stepped, if_pos motion, decide_eq_true_eq] at extruded
  have grown : next.gauge .filament = _ := Machine.after_gauge stepped .filament
  rw [show m.mode .filament = .absolute from absolute, driven] at grown
  rw [driven]
  cases number : c.number? .filament with
  | some v => exact ⟨v, rfl⟩
  | none =>
    rw [number] at grown
    have same : next.extrusion = m.extrusion := congrArg Gauge.logical grown
    exact absurd (same ▸ extruded) (Exact.lt_irrefl _)

theorem Run.Extrudes.after {run : Run Exact} (extrudes : run.Extrudes) {front rest : List (Command Exact)}
    {c : Command Exact} {mid next : Machine Exact} (split : run.commands = front ++ c :: rest)
    (reached : run.start.replay front = .ok mid) (stepped : mid.after c = .ok next) : next.extruded = true := by
  obtain ⟨ts, passes, lines, all⟩ := extrudes
  rw [split] at lines
  obtain ⟨us, _, rfl, rfl, later⟩ := List.map_eq_append_iff.mp lines
  obtain ⟨t, vs, rfl, rfl, -⟩ := List.map_eq_cons_iff.mp later
  obtain ⟨mid', before, behind⟩ := passes.of_append
  cases before.replay.symm.trans reached
  cases behind with
  | cons stepped' _ =>
    cases stepped'.symm.trans stepped
    exact all _ (List.mem_append_right _ (List.mem_cons_self ..))

/-- Where lines are left behind the cut move and extrusion is absolute, the line of the cut move reaches a total. -/
private theorem Woven.reaches_cut {tuning : Tuning Exact} {floor : Exact} {run : Run Exact} {segments : List (Segment Exact)}
    (w : Woven tuning floor run segments) (extrudes : run.Extrudes) (left : Weave.remainder tuning segments run ≠ [])
    (absolute : w.boundary.extrusionMode = .absolute) :
    ∃ front c mid v, run.commands.take (Weave.cut tuning segments).remainder = front ++ [c] ∧
      run.start.replay front = .ok mid ∧ mid.extrusionMode = .absolute ∧ mid.after c = .ok w.boundary ∧
        c.effect .absolute .filament = .reach v := by
  obtain ⟨known, traced⟩ := Segment.traced_of_path w.path
  have placed := traced.placed known
  obtain ⟨_, _, _, real⟩ := Weave.overlap_eq w.usable placed
  have replayed := w.replayed
  rw [Weave.remainder] at left
  rw [Weave.cut, real, Cut.ofLength, Exact.zero_eq] at left replayed ⊢
  rcases Cut.resume_cases _ 0 placed with ⟨uncut, _⟩ | ⟨front, m, back, split, _, _, _, cut⟩
  · rw [uncut, traced.length_eq, List.drop_length] at left
    exact absurd rfl left
  · rw [cut] at replayed ⊢
    rw [split] at traced
    obtain ⟨mid, before, behind⟩ := traced.of_append
    generalize lines : run.commands.drop front.length = lines at behind
    cases behind with
    | @cons _ next _ c rest _ _ stepped drawn more =>
      have whole : run.commands = run.commands.take front.length ++ c :: rest := by
        rw [← lines, List.take_append_drop]
      have taken : run.commands.take (front.length + 1) = run.commands.take front.length ++ [c] := by
        rw [List.take_add, lines]
        rfl
      rw [taken] at replayed ⊢
      obtain ⟨mid', reached, last⟩ := Machine.replay_append_eq_ok_iff.mp replayed
      cases before.replay.symm.trans reached
      obtain ⟨_, stepped', same⟩ := Machine.replay_cons_eq_ok_iff.mp last
      cases same
      obtain ⟨_, _, ⟨linear, _, _⟩ | ⟨_, _, other⟩⟩ := Segment.ofStep?_eq_some_iff.mp drawn
      · have mode : mid.extrusionMode = .absolute :=
          (Machine.after_of_isLinear linear stepped').2.1.symm.trans absolute
        obtain ⟨v, reach⟩ := Command.effect_of_extruded linear mode stepped' (extrudes.after whole reached stepped')
        exact ⟨_, c, mid, v, rfl, reached, mode, stepped', reach⟩
      · cases other

section
variable {p : Pass Exact} {floor : Exact} {l : Lead} {here here' there there' : Machine Exact}
  {blocks : List (Block Exact)} {loops : List (Loop Exact)}

/-- Where the rest of the loop is met, a lead that came with the loop is small, and gone if a total is reached. -/
private theorem Woven.lead_boundary {tuning : Tuning Exact} {run : Run Exact} {segments : List (Segment Exact)}
    {mid : Machine Exact} (w : Woven tuning floor run segments) (extrudes : run.Extrudes)
    (ahead : Machine.Ahead .filament l here run.start) (small : |l.logical| < Weave.slack)
    (replayed : here.replay (run.commands.take (Weave.cut tuning segments).remainder) = .ok mid) :
    ∃ k, Machine.Ahead .filament k mid w.boundary ∧ |k.logical| < Weave.slack ∧
      (w.boundary.extrusionMode = .absolute → w.settlement = .reached → k.logical = 0) := by
  by_cases clears : w.boundary.extrusionMode = .absolute ∧ Weave.remainder tuning segments run ≠ []
  · obtain ⟨front, c, before, v, lines, reached, absolute, stepped, reach⟩ :=
      w.reaches_cut extrudes clears.2 clears.1
    rw [lines] at replayed
    obtain ⟨before', source, last⟩ := Machine.replay_append_eq_ok_iff.mp replayed
    obtain ⟨_, followed, same⟩ := Machine.replay_cons_eq_ok_iff.mp last
    cases same
    have there := ahead.replay source reached
    have mode : before'.mode .filament = .absolute := there.1.symm.trans absolute
    have behind := there.after followed stepped
    rw [mode, reach] at behind
    exact ⟨_, behind, by rw [Lead.after, abs_zero]; exact Weave.slack_pos, fun _ _ => rfl⟩
  · refine ⟨_, ahead.replay replayed w.replayed, ?_, fun absolute reached => absurd ⟨absolute, fun none => ?_⟩ clears⟩
    · rw [Lead.through_filament]
      exact Lead.settle_lt small _
    · rw [settlement, none] at reached
      exact Settlement.noConfusion reached

/-- If the rest of the loop settles nothing, the counts agree behind a loop that recounts. -/
private theorem Woven.excess_of_pending {tuning : Tuning Exact} {run : Run Exact} {segments : List (Segment Exact)}
    (w : Woven tuning floor run segments) (recounts : Weave.Recounts tuning run segments)
    (pending : w.settlement = .pending) : w.excess = 0 := by
  have surplus := w.surplus_eq
  rw [if_pos pending] at surplus
  have none (undeclared : w.headway = -w.shortfall) : w.excess = 0 := by
    rw [undeclared, neg_add_cancel] at surplus
    rw [excess, surplus, ite_self]
  by_cases small : |w.shortfall| < Weave.slack
  · exact none (w.headway_of_small small)
  · cases mode : w.boundary.extrusionMode with
    | relative => exact none (w.headway_of_relative mode)
    | absolute =>
      rw [w.headway_of_large mode small, zero_add] at surplus
      rcases recounts.count with small' | ⟨finish, _⟩ | ⟨_, relative, _⟩
      · exact absurd small' small
      · have fallen : w.fallen.extrusionMode = .absolute := by rw [w.extrusionMode_fallen, recounts.mode, finish]
        rw [excess, if_pos ⟨fallen, surplus ▸ small⟩]
      · exact Mode.noConfusion (mode.symm.trans (w.extrusionMode_boundary.trans relative))

/-- A loop that is kept pushes the same filament in its rest for a program that meets it with nearly its
    count, and leaves the program with nearly its count. -/
theorem Woven.kept {p : Pass Exact} {run : Run Exact} {segments : List (Segment Exact)} {mid next : Machine Exact}
    {ts : List (Transition Exact)} (w : Woven p.tuning floor run segments) (extrudes : run.Extrudes)
    (keeps : Loop.Keeps p.tuning ⟨run, segments⟩) (given : ∀ c ∈ run.commands, c.Counted) (counted : here.Counted)
    (ahead : Machine.Ahead .filament l here run.start) (small : |l.logical| < Weave.slack)
    (covered : here.replay (run.commands.take (Weave.cut p.tuning segments).remainder) = .ok mid)
    (untouched : Passage mid ts next) (lines : ts.map (·.line) = Weave.remainder p.tuning segments run) :
    List.Forall₂ (fun t u => Exact.Near u.pushed t.pushed) ts w.rest ∧
      ∃ k, Machine.Ahead .filament k next w.last ∧ |k.logical| < Weave.slack := by
  have run_counted : run.Counted := ⟨counted.of_ahead ahead, given⟩
  have mid_counted : mid.Counted := counted.replay (fun c mem => given c (List.mem_of_mem_take mem)) covered
  obtain ⟨k, boundary, k_small, cleared⟩ := w.lead_boundary extrudes ahead small covered
  have mode : mid.extrusionMode = w.boundary.extrusionMode := boundary.1.symm
  have real : ∀ t ∈ ts, t.pushed.IsReal := (untouched.counted mid_counted fun t mem =>
    given t.line (List.mem_of_mem_drop (lines ▸ List.mem_map_of_mem mem : t.line ∈ Weave.remainder p.tuning segments run))).2
  constructor
  · refine ((boundary.trans (w.ahead_met run_counted)).evenly_iff untouched w.follows (w.rest_lines.trans lines.symm)
      real).mpr fun reached => ?_
    rw [lines, mode] at reached
    show |k.logical + w.headway| < Weave.slack
    cases met : w.boundary.extrusionMode with
    | absolute =>
      rw [cleared met reached, zero_add]
      exact w.headway_lt met
    | relative =>
      have none : w.shortfall = 0 :=
        keeps.steady (w.extrusionMode_boundary.symm.trans met) (w.settlement_eq.symm.trans reached)
      rw [w.headway_of_relative met, none, neg_zero, add_zero]
      exact k_small
  · have followed := w.continued.replay
    have source := untouched.replay
    rw [lines] at source
    rw [w.source_lines] at followed
    have finish := boundary.replay source followed
    rw [show mid.mode .filament = w.boundary.extrusionMode from mode, Lead.through_filament] at finish
    have last : Machine.Ahead .filament ⟨w.excess, (w.lead.settle w.settlement).offset + w.surplus - w.excess⟩
        run.finish w.last := ⟨w.extrusionMode_last.trans keeps.recounts.mode, w.gauge_last run_counted⟩
    refine ⟨_, finish.trans last, ?_⟩
    show |(k.settle w.settlement).logical + w.excess| < Weave.slack
    by_cases pending : w.settlement = .pending
    · rw [w.excess_of_pending keeps.recounts pending, add_zero]
      exact Lead.settle_lt k_small _
    · have excess := (w.near_last_iff run_counted).mp ((w.recounts_iff run_counted).mpr keeps.recounts).2.1
      have settled : (k.settle w.settlement).logical = 0 := by
        cases settlement : w.settlement with
        | pending => exact absurd settlement pending
        | _ => rfl
      rw [settled, zero_add]
      exact excess

/-- Where all loops are kept, the program is kept block by block. -/
theorem Chain.kept (chain : Chain p floor there blocks loops there') (usable : p.tuning.check = .ok ())
    (keeps : ∀ loop ∈ loops, loop.Keeps p.tuning) (given : ∀ c ∈ blocks.flatMap Block.source, c.Counted)
    (counted : here.Counted) (ahead : Machine.Ahead .filament l here there) (small : |l.logical| < Weave.slack)
    (replayed : here.replay (blocks.flatMap Block.source) = .ok here') :
    Kept p floor here there blocks loops here' there' := by
  induction chain generalizing here l with
  | nil => cases replayed; exact .nil _ _
  | @untouched m next last b blocks loops kept followed _ ih =>
    rw [List.flatMap_cons] at replayed given
    obtain ⟨mid, source, rest⟩ := Machine.replay_append_eq_ok_iff.mp replayed
    obtain ⟨here_given, others⟩ := List.forall_mem_append.mp given
    obtain ⟨ts, front, lines⟩ := Passage.of_replay source
    obtain ⟨us, back, written⟩ := Passage.of_replay followed
    have mid_counted := counted.replay here_given source
    have behind := ahead.replay source followed
    rw [Lead.through_filament] at behind
    have behind_small := Lead.settle_lt small (Settlement.ofLines (here.mode .filament) b.source)
    have real := (front.counted counted fun t mem => here_given t.line (lines ▸ List.mem_map_of_mem mem)).2
    have pushes := (ahead.evenly_iff front back (written.trans lines.symm) real).mpr fun _ => small
    exact .untouched kept front lines back written pushes behind.1 (behind.near mid_counted behind_small)
      (ih keeps others mid_counted behind behind_small rest)
  | @tapered run segments line commands _ _ _ _ extrudes path woven followed _ ih =>
    rw [List.flatMap_cons] at replayed given
    obtain ⟨mid, source, rest⟩ := Machine.replay_append_eq_ok_iff.mp replayed
    obtain ⟨here_given, others⟩ := List.forall_mem_append.mp given
    obtain ⟨here_keeps, more⟩ := List.forall_mem_cons.mp keeps
    have mid_counted := counted.replay here_given source
    obtain ⟨w, rfl⟩ := Weave.exists_woven usable path woven
    have pieces := w.pieces ⟨counted.of_ahead ahead, here_given⟩ p.markers
    cases pieces.passes.replay.symm.trans followed
    rw [Block.source, ← List.take_append_drop (Weave.cut p.tuning segments).remainder run.commands] at source
    obtain ⟨met, covered, left⟩ := Machine.replay_append_eq_ok_iff.mp source
    obtain ⟨ts, untouched, lines⟩ := Passage.of_replay left
    obtain ⟨pushes, k, behind, behind_small⟩ :=
      w.kept extrudes here_keeps here_given counted ahead small covered untouched lines
    exact .tapered pieces covered untouched lines pushes behind.1 (behind.near mid_counted behind_small)
      (ih more others mid_counted behind behind_small rest)

/-- Every loop that is replaced has its pieces, and recounts exactly if they hand mode and count on. -/
theorem Chain.recounted (chain : Chain p floor there blocks loops there') (usable : p.tuning.check = .ok ())
    (given : ∀ c ∈ blocks.flatMap Block.source, c.Counted) (counted : there.Counted) :
    ∀ loop ∈ loops, ∃ commands front rest back source last,
      Weave.weave p.tuning floor p.markers loop.run loop.path = .ok (.tapered commands) ∧
        Recounted p.tuning floor loop.run loop.path commands front rest back source last := by
  induction chain with
  | nil => exact List.forall_mem_nil _
  | untouched kept followed _ ih =>
    obtain ⟨here, others⟩ := List.forall_mem_append.mp (List.flatMap_cons ▸ given)
    exact ih others (counted.replay here followed)
  | @tapered run segments line commands _ _ _ _ extrudes path woven followed _ ih =>
    obtain ⟨here, others⟩ := List.forall_mem_append.mp (List.flatMap_cons ▸ given)
    obtain ⟨w, rfl⟩ := Weave.exists_woven usable path woven
    have run_counted : run.Counted := ⟨counted, here⟩
    have pieces := w.pieces run_counted p.markers
    cases pieces.passes.replay.symm.trans followed
    obtain ⟨⟨e, count⟩, ⟨o, offset⟩⟩ := (w.counted_source run_counted).1
    have last_counted : w.last.Counted := by
      have gauge := w.gauge_last run_counted
      rw [Machine.gauge, Machine.gauge, count, offset] at gauge
      exact ⟨⟨_, congrArg Gauge.logical gauge⟩, ⟨_, congrArg Gauge.offset gauge⟩⟩
    refine List.forall_mem_cons.mpr ⟨?_, ih others last_counted⟩
    exact ⟨_, _, _, _, _, _, woven, pieces, w.recounts_iff run_counted⟩

end

/-- Every line that is written for a program as it stands pushes the filament that it
    pushes in the program, up to what totals may differ by, if all loops that are
    replaced are kept. Each of them hands on the mode and the count of extrusion, and
    pushes the same in its rest, exactly if it recounts. -/
theorem Pass.kept_of_rewrite {p : Pass Exact} {commands : List (Command Exact)} {rewritten : Rewritten Exact}
    (written : p.rewrite commands = .ok rewritten) (counted : ∀ c ∈ commands, c.Counted) :
    ∃ floor blocks loops last, Floor.ofCommands commands = .ok floor ∧ p.blocks floor commands = .ok blocks ∧
      blocks.flatMap Block.source = commands ∧ blocks.flatMap Block.emitted = rewritten.commands ∧
        Chain p floor Machine.powerOn blocks loops last ∧
          (∀ loop ∈ loops, ∃ lines front rest back source last,
            Weave.weave p.tuning floor p.markers loop.run loop.path = .ok (.tapered lines) ∧
              Recounted p.tuning floor loop.run loop.path lines front rest back source last) ∧
            ((∀ loop ∈ loops, loop.Keeps p.tuning) →
              ∃ finish, Machine.powerOn.replay commands = .ok finish ∧
                Kept p floor Machine.powerOn Machine.powerOn blocks loops finish last) := by
  obtain ⟨usable, _, floor, lowest, blocks, cut, rfl⟩ := rewrite_eq_ok_iff.mp written
  obtain ⟨source, loops, last, chain⟩ := chain_of_blocks cut
  obtain ⟨_, finish, _, replayed, _⟩ := Floor.bounds_of_ofCommands lowest
  have on : (Machine.powerOn : Machine Exact).Counted := ⟨⟨0, Exact.zero_eq⟩, ⟨0, Exact.zero_eq⟩⟩
  rw [← source] at counted replayed
  refine ⟨floor, blocks, loops, last, lowest, cut, source, rfl, chain, chain.recounted usable counted on,
    fun keeps => ⟨finish, source ▸ replayed, ?_⟩⟩
  refine chain.kept usable keeps counted on (.refl ..) ?_ replayed
  rw [Lead.zero, abs_zero]
  exact Weave.slack_pos

private theorem Lane.keeps_shuttle {a d d' : ℝ} (long : 3 / 2 ≤ a) (out : 0 < d) (back : 0 < d') :
    Loop.Keeps (Lane.tuning 1) ⟨Lane.shuttle a out back, Lane.shuttlePath a d d'⟩ := by
  have none : Weave.shortfall (Weave.steps (Lane.tuning 1) (Lane.shuttlePath a d d')) = 0 := by
    rw [Lane.steps_shuttle long]
    simp [Weave.shortfall, Step.fall?, Lane.move]
  have silent : Pose.mode? (Weave.taperSection (Lane.tuning 1) (Lane.shuttlePath a d d')) = Option.none := by
    rw [← Weave.segment_steps, Lane.steps_shuttle long]
    rfl
  refine ⟨⟨by rw [silent]; rfl, .inl ?_⟩, fun _ _ => none⟩
  rw [none, abs_zero]
  exact Weave.slack_pos

theorem Pass.kept_of_shuttle :
    (∀ c ∈ [Lane.home, Lane.draw 3 3, Lane.draw 0 3, Lane.lift 1], c.Counted) ∧
      ∃ rewritten, (⟨Lane.tuning 1, true⟩ : Pass Exact).rewrite [Lane.home, Lane.draw 3 3, Lane.draw 0 3, Lane.lift 1] =
          .ok rewritten ∧
        ∃ blocks last finish, blocks.flatMap Block.emitted = rewritten.commands ∧
          Kept ⟨Lane.tuning 1, true⟩ 0 Machine.powerOn Machine.powerOn blocks
            [⟨Lane.shuttle 3 three_pos three_pos, Lane.shuttlePath 3 3 3⟩] finish last := by
  have long : (3 : ℝ) / 2 ≤ 3 := by norm_num
  have counted : ∀ c ∈ [Lane.home, Lane.draw 3 3, Lane.draw 0 3, Lane.lift 1], c.Counted := by
    simp only [List.forall_mem_cons]
    exact ⟨.of_bare rfl, Lane.counted_draw 3 3, Lane.counted_draw 0 3, .of_bare rfl, List.forall_mem_nil _⟩
  obtain ⟨commands, _, lowest, cut, rewritten, written⟩ :=
    Lane.rewrite_shuttle (z := 1) long three_pos three_pos zero_le_one true
  obtain ⟨floor, blocks, loops, last, lowest', cut', _, emitted, chain, _, kept⟩ := kept_of_rewrite written counted
  cases lowest.symm.trans lowest'
  cases cut.symm.trans cut'
  have loop : loops = [⟨Lane.shuttle 3 three_pos three_pos, Lane.shuttlePath 3 3 3⟩] := by
    obtain ⟨_, homed, looped⟩ := chain.behind
    cases Lane.after_home.symm.trans homed
    obtain ⟨run, segments, _, _, rfl, start, lines, path, _, lifted⟩ := looped.across
    cases Run.eq_of_start (s := Lane.shuttle 3 three_pos three_pos) start lines
    cases (Lane.path_shuttle three_pos three_pos).symm.trans path
    obtain ⟨_, _, done⟩ := lifted.behind
    cases done
    rfl
  subst loop
  obtain ⟨finish, _, kept⟩ := kept (List.forall_mem_singleton.mpr (Lane.keeps_shuttle long three_pos three_pos))
  exact ⟨counted, rewritten, written, _, last, finish, emitted, kept⟩

/-- Filament is not kept where a loop goes out by totals and back by amounts: it is
    left with extrusion absolute, and the amount that the next line pushes is read as
    a total. -/
theorem Pass.not_kept :
    ¬ ∀ (p : Pass Exact) (commands : List (Command Exact)) (rewritten : Rewritten Exact) (floor : Exact)
      (blocks front back : List (Block Exact)) (b : Block Exact) (here here' there there' : Machine Exact)
      (ts us : List (Transition Exact)),
      p.rewrite commands = .ok rewritten → (∀ c ∈ commands, c.Counted) → Floor.ofCommands commands = .ok floor →
        p.blocks floor commands = .ok blocks → blocks = front ++ b :: back → b.IsUntouched →
          Machine.powerOn.replay (front.flatMap Block.source) = .ok here →
            Machine.powerOn.replay (front.flatMap Block.emitted) = .ok there →
              Passage here ts here' → ts.map (·.line) = b.source → Passage there us there' →
                us.map (·.line) = b.source → List.Forall₂ (fun t u => Exact.Near u.pushed t.pushed) ts us := by
  intro kept
  obtain ⟨commands, replayed, lowest, cut, rewritten, written⟩ := Lane.rewrite_mixed true
  have counted : ∀ c ∈ Lane.mixedTrip, c.Counted := by
    simp only [Lane.mixedTrip, Lane.mixed, List.cons_append, List.nil_append, List.forall_mem_cons]
    exact ⟨.of_bare rfl, Lane.counted_draw 1 1, .of_bare rfl, Lane.counted_draw 3 3, .of_bare rfl, Lane.counted_draw 0 3,
      .of_bare rfl, Lane.counted_draw 1 1, List.forall_mem_nil _⟩
  have source : Machine.powerOn.replay (Lane.home :: (Lane.mixed.commands ++ [Lane.lift 1])) =
      .ok (Lane.spot .relative 0 1 6 0 false) :=
    Machine.replay_cons_eq_ok_iff.mpr ⟨_, Lane.after_home, Machine.replay_append_eq_ok_iff.mpr
      ⟨_, Lane.mixed.replays, Machine.replay_cons_eq_ok_iff.mpr ⟨_, Lane.after_lift 1, rfl⟩⟩⟩
  have emitted : Machine.powerOn.replay (Lane.home :: (commands ++ [Lane.lift 1])) =
      .ok (Lane.spot .absolute 2 1 6 0 false) :=
    Machine.replay_cons_eq_ok_iff.mpr ⟨_, Lane.after_home, Machine.replay_append_eq_ok_iff.mpr
      ⟨_, replayed, Machine.replay_cons_eq_ok_iff.mpr ⟨_, Lane.after_lift 1, rfl⟩⟩⟩
  have more : Lane.count .relative 6 1 = 7 := by norm_num [Lane.count]
  have total : Lane.count .absolute 6 1 = 1 := rfl
  have pushes := kept _ _ rewritten 0 _
    [.single Lane.home, .run 2 Lane.mixed.commands (.tapered commands), .single (Lane.lift 1)] []
    (.single (Lane.draw 1 1)) _ _ _ _ [⟨_, _, _⟩] [⟨_, _, _⟩] written counted lowest cut rfl
    (Block.isUntouched_single _) (by simpa [Block.source] using source) (by simpa [Block.emitted] using emitted)
    (.cons (Lane.after_draw 1 more (iff_of_true (by norm_num) rfl)) (.nil _)) rfl
    (.cons (Lane.after_draw 1 total (iff_of_false (by norm_num) Bool.false_ne_true)) (.nil _)) rfl
  have near := (List.forall₂_cons.mp pushes).1
  rw [Lane.pushed_spot, Lane.pushed_spot, Exact.near_real_iff, Weave.slack] at near
  norm_num at near

end Seam
