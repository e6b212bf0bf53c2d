import Seam.Proofs.Bare
import Seam.Proofs.Totality

/-!
Programs that differ in the lines that are no instructions. A pass makes the same runs of
two programs with the same instructions and comes to the same verdicts (`Pass.judge_bare`,
`Walk.exists_of_bare`), and the floor it keeps to is the same (`Floor.ofCommands_bare`). So
the pass writes the same instructions and gives the same account when such lines are shed
(`Pass.rewrite_of_sheds`).
-/
namespace Seam

open Command (bare)

/-- The second program is the first without some of the lines that are no instructions. -/
inductive Sheds {α : Type} : List (Command α) → List (Command α) → Prop
  | nil : Sheds [] []
  | keep (c : Command α) {cs ds : List (Command α)} (rest : Sheds cs ds) : Sheds (c :: cs) (c :: ds)
  | shed {c : Command α} {cs ds : List (Command α)} (inert : c.code? = none) (rest : Sheds cs ds) : Sheds (c :: cs) ds

namespace Sheds

variable {α : Type} {cs ds : List (Command α)}

private theorem sublist (sheds : Sheds cs ds) : ds.Sublist cs := by
  induction sheds with
  | nil => exact .slnil
  | keep c _ ih => exact ih.cons_cons c
  | shed _ _ ih => exact ih.cons _

private theorem bare_eq (sheds : Sheds cs ds) : bare ds = bare cs := by
  induction sheds with
  | nil => rfl
  | keep c _ ih => rw [← List.singleton_append, Command.bare_append, ih, ← Command.bare_append, List.singleton_append]
  | shed inert _ ih => rw [Command.bare_cons_of_inert (by rw [Command.isTracked, inert]; rfl), ih]

end Sheds

section
variable {α : Type}

def Verdict.bare : Verdict α → Verdict α
  | .tapered commands => .tapered (Command.bare commands)
  | verdict => verdict

private theorem Verdict.isLoop_bare (v : Verdict α) : v.bare.isLoop = v.isLoop := by cases v <;> rfl

private theorem Verdict.isScarfed_bare (v : Verdict α) : v.bare.isScarfed = v.isScarfed := by cases v <;> rfl

private theorem Verdict.isSkipped_bare (v : Verdict α) : v.bare.isSkipped = v.isSkipped := by cases v <;> rfl

private theorem Pass.verdict_bare (outcome : Except (Fault α) (Weave.Outcome α)) :
    (outcome >>= fun
      | .tapered commands => pure (Verdict.tapered commands)
      | .abandoned culprit => pure (.abandoned culprit)).map Verdict.bare =
    (outcome.map Weave.Outcome.bare).map fun
      | .tapered commands => .tapered commands
      | .abandoned culprit => .abandoned culprit := by
  rcases outcome with _ | _ | _ <;> rfl

namespace Block

/-- The block with bare lines, wherever it stands, if it has any. -/
def bare? : Block α → Option (Block α)
  | .single c => if c.isTracked then some (.single c) else none
  | .run _ commands verdict => some (.run 0 (Command.bare commands) verdict.bare)

private theorem bare_emitted (b : Block α) : Command.bare b.emitted = b.bare?.toList.flatMap emitted := by
  cases b with
  | single c =>
    cases tracked : c.isTracked with
    | false => simp [emitted, bare?, tracked, Command.bare_cons_of_inert tracked]
    | true => simp [emitted, bare?, tracked, Command.bare_cons_of_tracked tracked]
  | run line commands verdict => cases verdict <;> simp [emitted, bare?, Verdict.bare]

def bare (blocks : List (Block α)) : List (Block α) := blocks.filterMap bare?

@[simp] theorem bare_append (bs ds : List (Block α)) : bare (bs ++ ds) = bare bs ++ bare ds := List.filterMap_append

private theorem bare_cons (b : Block α) (blocks : List (Block α)) : bare (b :: blocks) = b.bare?.toList ++ bare blocks := by
  rw [bare, List.filterMap_cons]
  cases b.bare? <;> rfl

private theorem bare_singles {cs : List (Command α)} (inert : ∀ c ∈ cs, c.isTracked = false) : bare (cs.map .single) = [] := by
  refine List.filterMap_eq_nil_iff.mpr fun b mem => ?_
  obtain ⟨c, there, rfl⟩ := List.mem_map.mp mem
  rw [bare?, inert c there]
  rfl

private theorem flatMap_emitted_bare (blocks : List (Block α)) :
    (bare blocks).flatMap emitted = Command.bare (blocks.flatMap emitted) := by
  induction blocks with
  | nil => rfl
  | cons b blocks ih => rw [List.flatMap_cons, Command.bare_append, bare_emitted, bare_cons, List.flatMap_append, ih]

private theorem verdicts_bare (blocks : List (Block α)) :
    (bare blocks).filterMap verdict? = (blocks.filterMap verdict?).map Verdict.bare := by
  induction blocks with
  | nil => rfl
  | cons b blocks ih =>
    rw [bare_cons, List.filterMap_append, ih]
    cases b with
    | single c => cases tracked : c.isTracked <;> simp [bare?, tracked, verdict?, List.filterMap_cons]
    | run => rfl

private theorem notices_bare (blocks : List (Block α)) :
    ((bare blocks).filterMap notice?).map Notice.culprit = (blocks.filterMap notice?).map Notice.culprit := by
  induction blocks with
  | nil => rfl
  | cons b blocks ih =>
    rw [bare_cons, List.filterMap_append, List.map_append, ih]
    cases b with
    | single c => cases tracked : c.isTracked <;> simp [bare?, tracked, notice?, List.filterMap_cons]
    | run line commands verdict => cases verdict <;> rfl

end Block

end

variable {α : Type} [Scalar α]

/-- The two accounts say the same, but for the lines on which loops start. -/
structure Report.Alike (r s : Report α) : Prop where
  floor : r.floor = s.floor
  extrusionRuns : r.extrusionRuns = s.extrusionRuns
  closedLoops : r.closedLoops = s.closedLoops
  scarfedLoops : r.scarfedLoops = s.scarfedLoops
  skippedLoops : r.skippedLoops = s.skippedLoops
  messages : r.notices.map Notice.message = s.notices.map Notice.message

/-- The account depends on the bare blocks alone. -/
private theorem Report.alike_of_bare {blocks blocks' : List (Block α)} (same : Block.bare blocks' = Block.bare blocks)
    (floor : α) :
    (ofBlocks floor blocks').Alike (ofBlocks floor blocks) := by
  have verdicts : (blocks'.filterMap Block.verdict?).map Verdict.bare =
      (blocks.filterMap Block.verdict?).map Verdict.bare := by
    rw [← Block.verdicts_bare, same, Block.verdicts_bare]
  have culprits : (blocks'.filterMap Block.notice?).map Notice.culprit =
      (blocks.filterMap Block.notice?).map Notice.culprit := by
    rw [← Block.notices_bare, same, Block.notices_bare]
  have count (q : Verdict α → Bool) (blind : ∀ v : Verdict α, q v.bare = q v) :
      (blocks'.filterMap Block.verdict?).countP q = (blocks.filterMap Block.verdict?).countP q := by
    have counts := congrArg (List.countP q) verdicts
    simpa only [List.countP_map, Function.comp_def, blind] using counts
  refine ⟨rfl, ?_, count _ Verdict.isLoop_bare, count _ Verdict.isScarfed_bare, count _ Verdict.isSkipped_bare, ?_⟩
  · have lengths := congrArg List.length verdicts
    rwa [List.length_map, List.length_map] at lengths
  · -- a message names the culprit and nothing else
    let said (c : Command α) : String := Notice.message ⟨0, c⟩
    have messages := congrArg (List.map said) culprits
    rwa [List.map_map, List.map_map] at messages

namespace Floor

variable [Scalar.Lawful α] {floor floor' : α} {m : Machine α}

/-- To come to the same state again does not lower the floor further. -/
private theorem lower_of_lower (lowered : lower floor m = .ok floor') : lower floor' m = .ok floor' := by
  unfold lower at lowered ⊢
  cases height : height? m with
  | none => rfl
  | some z =>
    simp only [height] at lowered ⊢
    by_cases finite : Scalar.isFinite z = true
    case neg => simp [finite] at lowered
    simp only [finite, ↓reduceIte, Except.ok.injEq] at lowered ⊢
    by_cases below : z < floor
    · rw [if_pos below] at lowered
      subst lowered
      rw [if_neg (Scalar.Lawful.lt_irrefl z)]
    · rw [if_neg below] at lowered
      subst lowered
      rw [if_neg below]

private theorem lower_powerOn (floor : α) : lower floor Machine.powerOn = .ok floor := by
  have unknown : (Machine.powerOn : Machine α).positionKnown = false := by
    simp [Machine.positionKnown, Machine.powerOn, Point.isKnown, Point.unknown, Scalar.Lawful.isFinite_infinity]
  simp [lower, height?, unknown]

/-- The machine before each line has lowered the floor already, and a line that is no instruction leaves it there. -/
private theorem search_bare {commands : List (Command α)} (lowered : lower floor m = .ok floor) :
    search m floor (bare commands) = search m floor commands := by
  induction commands generalizing m floor with
  | nil => rfl
  | cons c cs ih =>
    cases tracked : c.isTracked with
    | false =>
      rw [Command.bare_cons_of_inert tracked, ih lowered, search_cons, Machine.after_of_inert tracked]
      show _ = lower floor m >>= fun f => search m f cs
      rw [lowered]
      rfl
    | true =>
      rw [Command.bare_cons_of_tracked tracked, search_cons, search_cons]
      exact Except.bind_congr_of_ok fun next _ => Except.bind_congr_of_ok fun f low => ih (lower_of_lower low)

theorem ofCommands_bare (commands : List (Command α)) : ofCommands (bare commands) = ofCommands commands := by
  rw [ofCommands_eq_search, ofCommands_eq_search, search_bare (lower_powerOn 0)]

end Floor

/-- Lines with the same instructions, an instruction first, begin with the same run. -/
private theorem Machine.exists_extruding_of_bare {m last : Machine α} {c : Command α} {cs ds taken rest : List (Command α)}
    (tracked : c.isTracked = true) (same : bare ds = bare cs) (split : c :: cs = taken ++ rest)
    (run : m.extruding (c :: cs) = .ok (taken, last)) :
    ∃ taken' rest', m.extruding (c :: ds) = .ok (taken', last) ∧ c :: ds = taken' ++ rest' ∧ bare taken' = bare taken ∧
      bare rest' = bare rest := by
  have same' : bare (c :: ds) = bare (c :: cs) := by
    rw [Command.bare_cons_of_tracked tracked, Command.bare_cons_of_tracked tracked, same]
  have runs (es : List (Command α)) := @extruding_bare_cons _ _ m c es tracked fun _ extruded => extruding_bare extruded es
  have mapped : (m.extruding (c :: ds)).map (Prod.map bare id) = .ok (bare taken, last) := by
    rw [← runs, same', runs, run]
    rfl
  obtain ⟨⟨taken', last'⟩, run', pair⟩ := Except.map_eq_ok_iff.mp mapped
  obtain ⟨lines, rfl⟩ := Prod.mk.inj pair
  have lines : bare taken' = bare taken := lines
  obtain ⟨_, rest', _, _, split', _⟩ := extruding_passage run'
  have whole : bare taken ++ bare rest' = bare taken ++ bare rest := by
    rw [← lines, ← Command.bare_append, ← split', same', split, Command.bare_append, lines]
  exact ⟨taken', rest', run', split', lines, List.append_cancel_left whole⟩

def Run.bare (r : Run α) : Run α := ⟨r.start, Command.bare r.commands, r.finish, (Machine.replay_bare _).trans r.replays⟩

variable [Scalar.Lawful α] {p : Pass α} {floor : α}

/-- The verdict on a run that begins with an instruction is that on its bare lines. -/
theorem Pass.judge_bare {run : Run α} {c : Command α} {cs : List (Command α)} (first : run.commands = c :: cs)
    (tracked : c.isTracked = true) : (p.judge floor run.bare).map Verdict.bare = (p.judge floor run).map Verdict.bare := by
  have closed : run.bare.isClosed p.tuning.loopTolerance = run.isClosed p.tuning.loopTolerance := rfl
  have path' : Segment.path? run.bare.start run.bare.commands =
      (Segment.path? run.start run.commands).map (Option.map Segment.bare) := by
    show Segment.path? run.start (Command.bare run.commands) = _
    rw [first, Segment.path?_bare tracked]
  unfold judge
  rw [closed, path']
  split
  · rfl
  · rcases path : Segment.path? run.start run.commands with fault | _ | segments
    · rfl
    · rfl
    · simp only [Except.map, Option.map, bind, Except.bind, Segment.pathLength_bare]
      by_cases short : Segment.pathLength segments < p.tuning.taperResolution
      · simp only [short, ↓reduceIte]
      · simp only [short, ↓reduceIte]
        obtain ⟨_, traced⟩ := Segment.traced_of_path path
        have woven := @Weave.weave_bare _ _ p.tuning segments _ floor _ p.markers run run.bare _ traced rfl rfl rfl
        exact (verdict_bare _).trans ((congrArg _ woven).trans (verdict_bare _).symm)

/-- Runs from machine to machine with the same instructions get the same verdict. -/
private theorem Pass.exists_judge_of_bare {run : Run α} (run' : Run α) {verdict : Verdict α} {c : Command α}
    {cs ds : List (Command α)} (tracked : c.isTracked = true) (first : run.commands = c :: cs) (first' : run'.commands = c :: ds)
    (start : run'.start = run.start) (lines : Command.bare run'.commands = Command.bare run.commands)
    (judged : p.judge floor run = .ok verdict) :
    ∃ verdict', p.judge floor run' = .ok verdict' ∧ verdict'.bare = verdict.bare := by
  have same : run'.bare = run.bare := Run.eq_of_start start lines
  refine Except.map_eq_ok_iff.mp ?_
  rw [← judge_bare first' tracked, same, judge_bare first tracked, judged]
  rfl

namespace Slice

variable {m : Machine α} {line : ℕ} {b : Block α} {rest : List (Command α)}

omit [Scalar.Lawful α] in
theorem first (slice : Slice p floor line m b rest) :
    (∃ c, b = .single c ∧ c.isTracked = false) ∨ ∃ c cs, b.source = c :: cs ∧ c.isTracked = true := by
  cases slice with
  | @single _ c =>
    cases tracked : c.isTracked with
    | false => exact .inl ⟨c, rfl, tracked⟩
    | true => exact .inr ⟨c, [], rfl, tracked⟩
  | @run r c cs _ _ first would =>
    refine .inr ⟨c, cs, first, Command.isTracked_of_isMotion ?_⟩
    by_contra silent
    rw [Machine.wouldExtrude, if_neg silent] at would
    cases would

/-- A block that begins with an instruction is made of all lines with the same instructions that begin with it. -/
theorem exists_of_bare (slice : Slice p floor line m b rest) {c : Command α} {cs ds : List (Command α)}
    (source : b.source = c :: cs) (tracked : c.isTracked = true)
    (same : Command.bare ds = Command.bare (cs ++ rest)) (line' : ℕ) :
    ∃ b' rest', c :: ds = b'.source ++ rest' ∧ Slice p floor line' m b' rest' ∧ b'.bare? = b.bare? ∧
      Command.bare rest' = Command.bare rest := by
  cases slice with
  | single silent =>
    cases source
    exact ⟨.single c, ds, rfl, .single silent, rfl, same⟩
  | @run r d _ _ verdict first would longest judged =>
    have whole : c :: (cs ++ rest) = r.commands ++ rest := by
      rw [← List.cons_append]
      exact congrArg (· ++ rest) source.symm
    obtain ⟨rfl, _⟩ := List.cons.inj (first.symm.trans source)
    obtain ⟨taken, rest', run, split, lines, left⟩ :=
      Machine.exists_extruding_of_bare tracked same whole (by rw [whole]; exact longest)
    obtain ⟨e, es, taken_cons⟩ : ∃ e es, taken = e :: es := by
      refine List.exists_cons_of_ne_nil fun none => ?_
      rw [none, first, Command.bare_cons_of_tracked tracked] at lines
      cases lines
    obtain ⟨rfl, _⟩ : d = e ∧ ds = es ++ rest' := by rwa [taken_cons, List.cons_append, List.cons.injEq] at split
    let r' : Run α := ⟨r.start, taken, r.finish, Machine.replay_of_extruding run⟩
    obtain ⟨verdict', judged', agrees⟩ := Pass.exists_judge_of_bare r' tracked first taken_cons rfl lines judged
    refine ⟨.run line' r'.commands verdict', rest', split, ?_, ?_, left⟩
    · exact Slice.run (r := r') taken_cons would (split ▸ run) judged'
    · show some (Block.run 0 (Command.bare taken) verdict'.bare) = _
      rw [agrees, lines]
      rfl

end Slice

namespace Walk

variable {m last : Machine α} {line : ℕ} {cs ds front : List (Command α)} {blocks : List (Block α)}

omit [Scalar.Lawful α] in
/-- Lines that are no instructions are blocks of their own where a walk begins. -/
private theorem append_inert (inert : ∀ c ∈ front, c.isTracked = false)
    (walk : Walk p floor m (line + front.length) cs blocks last) :
    Walk p floor m line (front ++ cs) (front.map .single ++ blocks) last := by
  induction front generalizing line with
  | nil => exact walk
  | cons c front ih =>
    obtain ⟨here, others⟩ := List.forall_mem_cons.mp inert
    have silent : m.wouldExtrude c = .ok false := by
      rw [Machine.wouldExtrude, Command.isMotion_of_inert here]
      rfl
    have replayed : m.replay [c] = .ok m := by
      rw [Machine.replay_cons, Machine.after_of_inert here]
      rfl
    refine .cons (.single silent) replayed (ih others ?_)
    rw [List.length_cons, Nat.add_comm front.length, ← Nat.add_assoc] at walk
    exact walk

/-- A walk over a program is one over every program with the same instructions. -/
theorem exists_of_bare (walk : Walk p floor m line cs blocks last) (same : Command.bare ds = Command.bare cs)
    (line' : ℕ) : ∃ blocks', Walk p floor m line' ds blocks' last ∧ Block.bare blocks' = Block.bare blocks := by
  induction walk generalizing ds line' with
  | nil m line =>
    have inert : ∀ c ∈ ds, c.isTracked = false := by
      intro c mem
      exact Bool.eq_false_iff.mpr (List.filter_eq_nil_iff.mp same c mem)
    refine ⟨ds.map .single, ?_, Block.bare_singles inert⟩
    have whole := append_inert inert (.nil m (line' + ds.length) : Walk p floor m _ [] [] m)
    rwa [List.append_nil, List.append_nil] at whole
  | @cons m next last line b rest blocks slice replayed behind ih =>
    rcases slice.first with ⟨c, rfl, inert⟩ | ⟨c, cs, source, tracked⟩
    · -- the machine does not meet the line, and neither need the other walk
      have still : m = next := by
        rw [Block.emitted, Machine.replay_cons, Machine.after_of_inert inert] at replayed
        exact Except.ok.inj replayed
      subst still
      obtain ⟨blocks', walk, kept⟩ := ih (same.trans (Command.bare_cons_of_inert inert)) line'
      refine ⟨blocks', walk, kept.trans ?_⟩
      rw [Block.bare_cons, Block.bare?, inert]
      rfl
    · rw [source, List.cons_append, Command.bare_cons_of_tracked tracked] at same
      obtain ⟨front, es, rfl, inert, _, same⟩ := List.filter_eq_cons_iff.mp same
      have inert : ∀ d ∈ front, d.isTracked = false := fun d mem => Bool.eq_false_iff.mpr (inert d mem)
      obtain ⟨b', rest', split, slice', bare_block, left⟩ :=
        slice.exists_of_bare source tracked same (line' + front.length)
      have replayed' : m.replay b'.emitted = .ok next := by
        rw [← Machine.replay_bare, Block.bare_emitted, bare_block, ← Block.bare_emitted, Machine.replay_bare, replayed]
      obtain ⟨blocks', walk, kept⟩ := ih left (line' + front.length + b'.source.length)
      refine ⟨front.map .single ++ b' :: blocks', append_inert inert (split ▸ .cons slice' replayed' walk), ?_⟩
      rw [Block.bare_append, Block.bare_singles inert, List.nil_append, Block.bare_cons, Block.bare_cons, bare_block, kept]

end Walk

/-- The lines of a program that are no instructions have no influence on what becomes of it: a program is rewritten
    without them if it is with them, into the same instructions, and the account is the same but for line numbers. -/
theorem Pass.rewrite_of_sheds {commands commands' : List (Command α)} {rewritten : Rewritten α}
    (sheds : Sheds commands commands') (written : p.rewrite commands = .ok rewritten) :
    ∃ rewritten', p.rewrite commands' = .ok rewritten' ∧
      Command.bare rewritten'.commands = Command.bare rewritten.commands ∧ rewritten'.report.Alike rewritten.report := by
  obtain ⟨usable, admitted, floor, lowest, blocks, cut, rfl⟩ := rewrite_eq_ok_iff.mp written
  have same := sheds.bare_eq
  have admitted' : Admission.check commands' = .ok () :=
    Admission.check_eq_ok_iff.mpr fun c mem => Admission.check_eq_ok_iff.mp admitted c (sheds.sublist.mem mem)
  have lowest' : Floor.ofCommands commands' = .ok floor := by
    rw [← Floor.ofCommands_bare, same, Floor.ofCommands_bare, lowest]
  obtain ⟨last, walk⟩ := blocks_eq_ok_iff.mp cut
  obtain ⟨blocks', walk', kept⟩ := walk.exists_of_bare same 1
  have cut' : p.blocks floor commands' = .ok blocks' := blocks_eq_ok_iff.mpr ⟨last, walk'⟩
  refine ⟨_, rewrite_eq_ok_iff.mpr ⟨usable, admitted', floor, lowest', blocks', cut', rfl⟩, ?_, ?_⟩
  · rw [← Block.flatMap_emitted_bare, kept, Block.flatMap_emitted_bare]
  · exact Report.alike_of_bare kept floor

/-- A remark and a line kept as it stands change nothing about the loop of a shuttle: it is the one that is replaced. -/
theorem Pass.rewrite_of_shuttle_sheds :
    let shuttle := [Lane.home, Lane.draw 3 3, Lane.draw 0 3, Lane.lift 1]
    let noisy := [Lane.home, .comment "TYPE:Perimeter", Lane.draw 3 3, .verbatim "M73 P50", Lane.draw 0 3, Lane.lift 1]
    let p : Pass Exact := ⟨Lane.tuning 1, true⟩
    Sheds noisy shuttle ∧ ∃ rewritten rewritten', p.rewrite noisy = .ok rewritten ∧ p.rewrite shuttle = .ok rewritten' ∧
      Command.bare rewritten'.commands = Command.bare rewritten.commands ∧ rewritten'.report.Alike rewritten.report ∧
      rewritten.report.scarfedLoops = 1 := by
  intro shuttle noisy p
  have sheds : Sheds noisy shuttle := .keep _ (.shed rfl (.keep _ (.shed rfl (.keep _ (.keep _ .nil)))))
  obtain ⟨_, _, lowest, cut, _, shuttle_written⟩ :=
    Lane.rewrite_shuttle (a := 3) (z := 1) (by norm_num) three_pos three_pos zero_le_one true
  obtain ⟨usable, shuttle_admitted, _⟩ := rewrite_eq_ok_iff.mp shuttle_written
  have remark : (Command.comment "TYPE:Perimeter" : Command Exact).Admitted :=
    Admission.admitted_of_objection? (rfl : Admission.objection? 0 _ = none)
  have progress : (Command.verbatim "M73 P50" : Command Exact).Admitted := by
    have token : (Command.verbatim "M73 P50" : Command Exact).leadingToken? = some "M73" := by decide
    intro line fault offends
    cases offends with
    | prohibited leading listed =>
      cases token.symm.trans leading
      exact absurd listed (by decide)
  have admitted : Admission.check noisy = .ok () := by
    have lines := Admission.check_eq_ok_iff.mp shuttle_admitted
    simp only [List.forall_mem_cons] at lines
    obtain ⟨home, out, back, lift, _⟩ := lines
    refine Admission.check_eq_ok_iff.mpr ?_
    simp only [noisy, List.forall_mem_cons]
    exact ⟨home, remark, out, progress, back, lift, List.forall_mem_nil _⟩
  obtain ⟨rewritten, written⟩ := exists_rewrite_iff.mpr ⟨usable, admitted⟩
  obtain ⟨rewritten', written', same, alike⟩ := rewrite_of_sheds sheds written
  refine ⟨sheds, rewritten, rewritten', written, written', same, alike, ?_⟩
  obtain ⟨_, _, floor, lowest', blocks, cut', rfl⟩ := rewrite_eq_ok_iff.mp written'
  cases lowest.symm.trans lowest'
  cases cut.symm.trans cut'
  exact alike.scarfedLoops.symm

end Seam
