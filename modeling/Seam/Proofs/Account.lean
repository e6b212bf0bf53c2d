import Seam.Proofs.Eligible
import Seam.Proofs.Totality

/-!
The account of a pass. Every run gets one of five verdicts, and each verdict says what was
found out about the run (`Run.Settled`, `Pass.settled_of_judge`): whether it is closed, a
path, long enough, and free of lines in its overlap that change what coordinates mean. The
counts add up because the verdicts are five (`Report.closedLoops_eq`), and a notice names the
line of the program on which its loop starts, so that the notices go up with the lines
(`Walk.notices_pairwise`).
-/
namespace Seam

section
variable {α : Type}

def Segment.alteration? : Segment α → Option (Command α)
  | .move _ => none
  | .other c => if c.altersFrame then some c else none

def Verdict.isAbandoned : Verdict α → Bool
  | .abandoned _ => true
  | _ => false

/-- A loop is tapered, skipped or abandoned. -/
private theorem Verdict.countP_isLoop (verdicts : List (Verdict α)) :
    verdicts.countP isLoop = verdicts.countP isScarfed + verdicts.countP isSkipped + verdicts.countP isAbandoned := by
  induction verdicts with
  | nil => rfl
  | cons v verdicts ih =>
    simp only [List.countP_cons, ih]
    cases v <;> simp only [isLoop, isScarfed, isSkipped, isAbandoned, Bool.false_eq_true, ↓reduceIte] <;> omega

private theorem Block.length_notices (blocks : List (Block α)) :
    (blocks.filterMap notice?).length = (blocks.filterMap verdict?).countP Verdict.isAbandoned := by
  induction blocks with
  | nil => rfl
  | cons b blocks ih =>
    cases b with
    | single => exact ih
    | run line commands verdict =>
      rw [List.filterMap_cons_some (f := verdict?) rfl, List.countP_cons, ← ih]
      cases verdict <;> rfl

namespace Report

theorem closedLoops_eq (floor : α) (blocks : List (Block α)) :
    (ofBlocks floor blocks).closedLoops = (ofBlocks floor blocks).scarfedLoops + (ofBlocks floor blocks).skippedLoops +
      (ofBlocks floor blocks).notices.length := by
  show (blocks.filterMap Block.verdict?).countP _ = _ + _ + (blocks.filterMap Block.notice?).length
  rw [Verdict.countP_isLoop, Block.length_notices]
  rfl

private theorem closedLoops_le (floor : α) (blocks : List (Block α)) :
    (ofBlocks floor blocks).closedLoops ≤ (ofBlocks floor blocks).extrusionRuns :=
  List.countP_le_length

end Report

end

variable {α : Type} [Scalar α] {p : Pass α} {floor : α} {m last : Machine α} {line : ℕ}

/-- The section has the same alterations as the lines up to the boundary. -/
private theorem Cut.findSome?_resume {length travelled : α} (ts : List (Transition α)) :
    (resume length travelled (ts.map Transition.segment)).taper.findSome? Segment.alteration? =
      ((ts.map (·.line)).take (resume length travelled (ts.map Transition.segment)).remainder).find?
        Command.altersFrame := by
  induction ts generalizing travelled with
  | nil => rfl
  | cons t ts ih =>
    rw [List.map_cons, List.map_cons]
    cases linear : t.isLinear with
    | false =>
      rw [Transition.segment_of_not_isLinear linear, resume]
      show (Segment.other t.line :: _).findSome? _ = (t.line :: (ts.map _).take _).find? _
      rw [List.findSome?_cons, List.find?_cons, ← ih, Segment.alteration?]
      cases t.line.altersFrame <;> rfl
    | true =>
      obtain ⟨_, _, plain⟩ := Command.unlike_of_isLinear linear
      rw [Transition.segment_of_isLinear linear, resume]
      split
      case isTrue =>
        show none = [t.line].find? _
        rw [List.find?_cons, plain]
        rfl
      case isFalse =>
        show List.findSome? _ (resume ..).taper = (t.line :: (ts.map _).take _).find? _
        rw [List.find?_cons, plain, ← ih]

private theorem Segment.findSome?_resample {resolution : α} (segments : List (Segment α)) :
    (resample resolution segments).findSome? alteration? = segments.findSome? alteration? := by
  induction segments with
  | nil => rfl
  | cons s segments ih =>
    have whole : resample resolution (s :: segments) = steps resolution s ++ resample resolution segments :=
      List.flatMap_cons
    rw [whole, List.findSome?_append, List.findSome?_cons, ih]
    cases s with
    | move m =>
      have none : (steps resolution (.move m)).findSome? alteration? = none := by
        refine List.findSome?_eq_none_iff.mpr fun s mem => ?_
        obtain ⟨_, _, rfl⟩ := List.mem_map.mp mem
        rfl
      rw [none]
      rfl
    | other c =>
      show ([.other c].findSome? alteration?).or _ = _
      rw [List.findSome?_singleton]
      cases (alteration? (.other c) : Option (Command α)) <;> rfl

namespace Weave

variable {tuning : Tuning α} {markers : Bool} {run : Run α} {segments : List (Segment α)}

/-- The line that a loop is abandoned for is the first up to the boundary that changes what coordinates mean. -/
private theorem findSome?_steps (path : Segment.path? run.start run.commands = .ok (some segments)) :
    (steps tuning segments).findSome? Step.alteration? =
      (run.commands.take (cut tuning segments).remainder).find? Command.altersFrame := by
  obtain ⟨ts, passes, lines⟩ := Passage.of_replay run.replays
  rw [← lines, Segment.path?_eq_some_iff passes] at path
  obtain ⟨_, _, rfl⟩ := path
  have same : (Step.alteration? : Step α → Option (Command α)) = Segment.alteration? ∘ Step.segment := by
    funext step
    cases step <;> rfl
  rw [same, ← List.findSome?_map, segment_steps, taperSection, Segment.findSome?_resample, ← lines]
  exact Cut.findSome?_resume ts

private theorem outcome_cases {outcome : Outcome α} (woven : weave tuning floor markers run segments = .ok outcome) :
    ((steps tuning segments).findSome? Step.alteration? = none ∧ ∃ commands, outcome = .tapered commands) ∨
      ∃ culprit, (steps tuning segments).findSome? Step.alteration? = some culprit ∧ outcome = .abandoned culprit := by
  rw [weave_eq] at woven
  simp only [Except.bind_eq_ok_iff] at woven
  obtain ⟨_, _, _, _, _, _, _, _, _, _, settled⟩ := woven
  split at settled
  case h_1 culprit altered => cases settled; exact .inr ⟨culprit, altered, rfl⟩
  case h_2 plain => cases settled; exact .inl ⟨plain, _, rfl⟩

end Weave

/-- The verdict tells what was found out about the run. -/
inductive Run.Settled (tuning : Tuning α) (run : Run α) : Verdict α → Prop
  | unclosed (apart : run.isClosed tuning.loopTolerance = false) : Settled tuning run .unclosed
  | rigid (closed : run.isClosed tuning.loopTolerance = true)
      (pathless : Segment.path? run.start run.commands = .ok none) : Settled tuning run .rigid
  | short {segments : List (Segment α)} (closed : run.isClosed tuning.loopTolerance = true)
      (path : Segment.path? run.start run.commands = .ok (some segments))
      (near : Segment.pathLength segments < tuning.taperResolution) : Settled tuning run .short
  | tapered {segments : List (Segment α)} (closed : run.isClosed tuning.loopTolerance = true)
      (path : Segment.path? run.start run.commands = .ok (some segments))
      (long : ¬ Segment.pathLength segments < tuning.taperResolution)
      (plain : (run.commands.take (Weave.cut tuning segments).remainder).find? Command.altersFrame = none)
      (commands : List (Command α)) : Settled tuning run (.tapered commands)
  | abandoned {segments : List (Segment α)} {culprit : Command α} (closed : run.isClosed tuning.loopTolerance = true)
      (path : Segment.path? run.start run.commands = .ok (some segments))
      (long : ¬ Segment.pathLength segments < tuning.taperResolution)
      (altered : (run.commands.take (Weave.cut tuning segments).remainder).find? Command.altersFrame = some culprit) :
      Settled tuning run (.abandoned culprit)

theorem Pass.settled_of_judge {run : Run α} {verdict : Verdict α} (judged : p.judge floor run = .ok verdict) :
    run.Settled p.tuning verdict := by
  unfold judge at judged
  split at judged
  case isTrue apart =>
    cases judged
    exact .unclosed (by simpa using apart)
  case isFalse near =>
    have closed : run.isClosed p.tuning.loopTolerance = true := by simpa using near
    obtain ⟨path?, path, judged⟩ := Except.bind_eq_ok_iff.mp judged
    cases path? with
    | none => cases judged; exact .rigid closed path
    | some segments =>
      simp only at judged
      split at judged
      case isTrue near => cases judged; exact .short closed path near
      case isFalse long =>
        obtain ⟨outcome, woven, judged⟩ := Except.bind_eq_ok_iff.mp judged
        have alteration : (Weave.steps p.tuning segments).findSome? Step.alteration? =
            (run.commands.take (Weave.cut p.tuning segments).remainder).find? Command.altersFrame :=
          Weave.findSome?_steps path
        obtain ⟨plain, commands, rfl⟩ | ⟨culprit, altered, rfl⟩ := Weave.outcome_cases woven
        · cases judged
          exact .tapered closed path long (alteration.symm.trans plain) commands
        · cases judged
          exact .abandoned closed path long (alteration.symm.trans altered)

namespace Walk

variable {cs : List (Command α)} {blocks : List (Block α)}

/-- Notices are about lines that the walk has before it, each about a line behind that of the one before. -/
theorem notices_pairwise (walk : Walk p floor m line cs blocks last) :
    (∀ n ∈ blocks.filterMap Block.notice?, line ≤ n.line) ∧
      (blocks.filterMap Block.notice?).Pairwise fun n n' => n.line < n'.line := by
  induction walk with
  | nil => exact ⟨fun n mem => absurd mem List.not_mem_nil, .nil⟩
  | @cons m next last line b rest blocks slice replayed behind ih =>
    obtain ⟨later, increasing⟩ := ih
    have some := List.length_pos_of_ne_nil slice.source_ne_nil
    cases told : b.notice? with
    | none =>
      rw [List.filterMap_cons_none told]
      refine ⟨fun n mem => ?_, increasing⟩
      have := later n mem
      omega
    | some n =>
      have here : n.line = line := by
        cases slice with
        | single => cases told
        | @run _ _ _ _ verdict => cases verdict <;> cases told; rfl
      rw [List.filterMap_cons_some told, List.forall_mem_cons, List.pairwise_cons]
      refine ⟨⟨here.ge, fun n mem => ?_⟩, fun n' mem => ?_, increasing⟩
      · have := later n mem
        omega
      · have := later n' mem
        omega

/-- A block stands on the line behind those of the blocks before it. -/
private theorem getElem?_source (walk : Walk p floor m line cs blocks last) {front back : List (Block α)} {b : Block α}
    {c : Command α} {others : List (Command α)} (split : blocks = front ++ b :: back) (first : b.source = c :: others) :
    cs[(front.flatMap Block.source).length]? = some c := by
  rw [← walk.source, split, List.flatMap_append, List.flatMap_cons, first, List.getElem?_append_right le_rfl, Nat.sub_self]
  rfl

end Walk

/-- A run's block stands on the line on which the run begins, and its verdict tells what was found out about the run. -/
private theorem Slice.exists_settled {b : Block α} {rest : List (Command α)} (slice : Slice p floor line m b rest)
    (isRun : b.isRun = true) :
    ∃ run verdict c cs, b = .run line run.commands verdict ∧ run.start = m ∧ run.commands = c :: cs ∧
      Run.extract m (run.commands ++ rest) = .ok run ∧ run.Settled p.tuning verdict := by
  cases slice with
  | single => cases isRun
  | @run r c cs _ verdict first _ longest judged =>
    exact ⟨r, verdict, c, cs, rfl, rfl, first, Run.extract_eq_ok_iff.mpr ⟨rfl, longest⟩, Pass.settled_of_judge judged⟩

/-- What a notice tells: on its line begins a run that is a loop long enough to be tapered, and is kept because of the
    first line in its overlap that changes what coordinates mean. -/
structure Notice.Tells (n : Notice α) (tuning : Tuning α) (commands : List (Command α)) (run : Run α) : Prop where
  first : ∃ c cs, run.commands = c :: cs ∧ commands[n.line - 1]? = some c
  numbered : 1 ≤ n.line
  closed : run.isClosed tuning.loopTolerance = true
  overlap : ∃ segments, Segment.path? run.start run.commands = .ok (some segments) ∧
    ¬ Segment.pathLength segments < tuning.taperResolution ∧
      ∃ early late, run.commands.take (Weave.cut tuning segments).remainder = early ++ n.culprit :: late ∧
        n.culprit.altersFrame = true ∧ ∀ c ∈ early, c.altersFrame = false
  message : n.message = "coordinate system changed by '" ++ n.culprit.render ++ "' inside the overlap"

private theorem Run.Settled.tells {tuning : Tuning α} {run : Run α} {culprit c : Command α} {commands cs : List (Command α)}
    {line : ℕ} (settled : run.Settled tuning (.abandoned culprit)) (first : run.commands = c :: cs)
    (here : commands[line]? = some c) : (⟨line + 1, culprit⟩ : Notice α).Tells tuning commands run := by
  cases settled with
  | @abandoned segments _ closed path long altered =>
    obtain ⟨alters, early, late, taken, before⟩ := List.find?_eq_some_iff_append.mp altered
    have plain : ∀ c ∈ early, c.altersFrame = false := fun c mem => by simpa using before c mem
    exact ⟨⟨c, cs, first, here⟩, Nat.le_add_left .., closed, ⟨segments, path, long, early, late, taken, alters, plain⟩, rfl⟩

namespace Pass

/-- The account of an accepted program: every run has the one verdict that tells what was found out about it, every loop
    is counted once, and the notices go up with the lines on which their loops begin. -/
theorem accounted_of_rewrite {commands : List (Command α)} {rewritten : Rewritten α}
    (written : p.rewrite commands = .ok rewritten) :
    rewritten.report.closedLoops =
        rewritten.report.scarfedLoops + rewritten.report.skippedLoops + rewritten.report.notices.length ∧
      rewritten.report.closedLoops ≤ rewritten.report.extrusionRuns ∧
      rewritten.report.notices.Pairwise (fun n n' => n.line < n'.line) ∧
      ∃ blocks : List (Block α), p.blocks rewritten.report.floor commands = .ok blocks ∧
        blocks.flatMap Block.source = commands ∧ rewritten.report = Report.ofBlocks rewritten.report.floor blocks ∧
        (∀ front b back, blocks = front ++ b :: back → b.isRun = true → ∃ run verdict,
          b = .run ((front.flatMap Block.source).length + 1) run.commands verdict ∧
            Machine.powerOn.replay (front.flatMap Block.emitted) = .ok run.start ∧
            Run.extract run.start (run.commands ++ back.flatMap Block.source) = .ok run ∧
            run.Settled p.tuning verdict) ∧
        ∀ n ∈ rewritten.report.notices, ∃ front run back,
          blocks = front ++ .run n.line run.commands (.abandoned n.culprit) :: back ∧
            Machine.powerOn.replay (front.flatMap Block.emitted) = .ok run.start ∧
            Run.extract run.start (run.commands ++ back.flatMap Block.source) = .ok run ∧
            n.Tells p.tuning commands run := by
  obtain ⟨_, _, floor, _, blocks, cut, rfl⟩ := rewrite_eq_ok_iff.mp written
  obtain ⟨last, walk⟩ := blocks_eq_ok_iff.mp cut
  have runs (front : List (Block α)) (b : Block α) (back : List (Block α)) (split : blocks = front ++ b :: back)
      (isRun : b.isRun = true) : ∃ run verdict, b = .run ((front.flatMap Block.source).length + 1) run.commands verdict ∧
        Machine.powerOn.replay (front.flatMap Block.emitted) = .ok run.start ∧
          Run.extract run.start (run.commands ++ back.flatMap Block.source) = .ok run ∧
            run.Settled p.tuning verdict ∧ ∃ c cs, run.commands = c :: cs := by
    obtain ⟨_, reached, slice⟩ := walk.slice split
    obtain ⟨run, verdict, c, cs, same, rfl, first, extracted, settled⟩ := slice.exists_settled isRun
    rw [Nat.add_comm] at same
    exact ⟨run, verdict, same, reached, extracted, settled, c, cs, first⟩
  refine ⟨Report.closedLoops_eq floor blocks, Report.closedLoops_le floor blocks, walk.notices_pairwise.2, blocks, cut,
    walk.source, rfl, fun front b back split isRun => ?_, fun n mem => ?_⟩
  · obtain ⟨run, verdict, same, reached, extracted, settled, _⟩ := runs front b back split isRun
    exact ⟨run, verdict, same, reached, extracted, settled⟩
  · obtain ⟨b, listed, told⟩ := List.mem_filterMap.mp mem
    obtain ⟨front, back, split⟩ := List.append_of_mem listed
    have isRun : b.isRun = true := by
      cases b with
      | single => cases told
      | run => rfl
    obtain ⟨run, verdict, rfl, reached, extracted, settled, c, cs, first⟩ := runs front b back split isRun
    cases verdict with
    | abandoned culprit =>
      cases told
      exact ⟨front, run, back, split, reached, extracted, settled.tells first (walk.getElem?_source split first)⟩
    | _ => cases told

end Pass

namespace Lane

/-- The line that asks for positions, as they are asked for already. -/
def turn : Command Exact := .ofWords .absolutePositioning ⟨[]⟩

section
variable {a b : ℝ}

/-- The path of a loop that goes out in two moves, with such a line between them, and back again. -/
noncomputable def turnedPath (a b : ℝ) : List (Segment Exact) :=
  [.move (move 0 a a), .other turn, .move (move a b b), .move (move b 0 b)]

private theorem traced_turned (first : 0 < a) (second : 0 < b) :
    Traced (.real 0) (spot .relative 0 0 0 0 false) [draw a a, turn, draw b b, draw 0 b] (turnedPath a b)
      (spot .relative 0 0 (a + b + b) 0 true) := by
  have count_a : count .relative 0 a = a := zero_add a
  have turned : Segment.ofStep? (.real 0) (spot .relative a 0 a 0 true) (spot .relative a 0 a 0 true) turn =
      some (.other turn) :=
    Segment.ofStep?_eq_some_iff.mpr ⟨rfl, physicalKnown_spot, .inr ⟨rfl, by simp [turn, Command.ofWords, Command.code?], rfl⟩⟩
  exact .cons (after_draw a count_a (iff_of_true first rfl)) (ofStep?_draw (sub_zero a))
    (.cons rfl turned
      (.cons (after_draw b rfl (iff_of_true (lt_add_of_pos_right a second) rfl)) (ofStep?_draw (add_sub_cancel_left a b))
        (.cons (after_draw 0 rfl (iff_of_true (lt_add_of_pos_right (a + b) second) rfl))
          (ofStep?_draw (add_sub_cancel_left (a + b) b)) (.nil _))))

noncomputable def turned (first : 0 < a) (second : 0 < b) : Run Exact := ⟨_, _, _, (traced_turned first second).replay⟩

end

private theorem lengths_turned :
    (move 0 1 1).length = .real 1 ∧ (move 1 3 3).length = .real 2 ∧ (move 3 0 3).length = .real 3 := by
  norm_num [length_move]

private theorem pathLength_turned : Segment.pathLength (turnedPath 1 3) = .real 6 := by
  obtain ⟨first, second, third⟩ := lengths_turned
  have lengths : (turnedPath 1 3).map Segment.length = [1, 0, 2, 3].map Exact.real := by
    simp only [turnedPath, Segment.length, first, second, third, Exact.zero_eq, List.map_cons, List.map_nil]
  rw [Segment.pathLength, lengths, Exact.sum_real]
  norm_num

/-- The overlap of the loop reaches beyond the line between the moves. -/
private theorem exists_remainder_turned : ∃ k, (Weave.cut (tuning 2) (turnedPath 1 3)).remainder = k + 2 := by
  have short : ¬ (Segment.leastLength < Exact.real 1 ∧ Exact.real 2 ≤ Exact.real 0 + Exact.real 1) := by
    simp only [Exact.real_add, Exact.real_le]
    norm_num
  rw [Weave.cut, overlap_of_pathLength pathLength_turned (by norm_num), Cut.ofLength, turnedPath, Cut.resume,
    lengths_turned.1, Exact.zero_eq, if_neg short, Cut.resume]
  exact ⟨_, rfl⟩

private theorem judge_turned (markers : Bool) :
    (⟨tuning 2, markers⟩ : Pass Exact).judge 0 (turned one_pos three_pos) = .ok (.abandoned turn) := by
  set run := turned one_pos three_pos
  obtain ⟨verdict, judged⟩ :=
    Pass.exists_judge (p := ⟨tuning 2, markers⟩) (check_tuning two_pos) ⟨0, Exact.zero_eq⟩ run
  obtain ⟨k, reach⟩ := exists_remainder_turned
  have path : Segment.path? run.start run.commands = .ok (some (turnedPath 1 3)) :=
    path_of_traced (traced_turned one_pos three_pos)
  have closed : run.isClosed (.real 1) = true := isClosed_of_spot rfl rfl
  have found : (run.commands.take (k + 2)).find? Command.altersFrame = some turn := rfl
  have long : ¬ Segment.pathLength (turnedPath 1 3) < (tuning 2).taperResolution := by
    rw [pathLength_turned]
    show ¬ Exact.real 6 < Exact.real 2
    norm_num
  rw [judged]
  cases Pass.settled_of_judge judged with
  | unclosed apart => cases apart.symm.trans closed
  | rigid _ pathless => cases pathless.symm.trans path
  | short _ path' near => cases path.symm.trans path'; exact absurd near long
  | tapered _ path' _ plain =>
    cases path.symm.trans path'
    rw [reach, found] at plain
    cases plain
  | abandoned _ path' _ altered =>
    cases path.symm.trans path'
    rw [reach, found] at altered
    cases altered
    rfl

private theorem rewrite_turned (markers : Bool) :
    Floor.ofCommands [home, draw 1 1, turn, draw 3 3, draw 0 3, lift 1] = .ok 0 ∧
      (⟨tuning 2, markers⟩ : Pass Exact).blocks 0 [home, draw 1 1, turn, draw 3 3, draw 0 3, lift 1] =
          .ok [.single home, .run 2 (turned one_pos three_pos).commands (.abandoned turn), .single (lift 1)] ∧
        ∃ rewritten,
          (⟨tuning 2, markers⟩ : Pass Exact).rewrite [home, draw 1 1, turn, draw 3 3, draw 0 3, lift 1] = .ok rewritten := by
  have first : count .relative 0 1 = 1 := zero_add 1
  have one := @after_draw .relative 0 0 0 0 false 1 1 1 true first (iff_of_true (by norm_num) rfl)
  have three := @after_draw .relative 1 0 1 0 true 3 3 (1 + 3) true rfl (iff_of_true (by norm_num) rfl)
  have inward := @after_draw .relative 3 0 (1 + 3) 0 true 0 3 (1 + 3 + 3) true rfl (iff_of_true (by norm_num) rfl)
  have turns : (spot .relative 1 0 1 0 true).after turn = .ok (spot .relative 1 0 1 0 true) := rfl
  have lifted := @after_lift .relative 0 0 (1 + 3 + 3) 0 true 1
  have admitted : Admission.check [home, draw 1 1, turn, draw 3 3, draw 0 3, lift 1] = .ok () := by
    simp [Admission.check, Admission.objection?, home, draw, lift, turn, Command.ofWords, Command.leadingToken?,
      Words.contains, Words.get?]
  refine rewrite_judged (turned one_pos three_pos) [⟨_, _, _⟩] two_pos rfl (.cons one (.cons turns (.cons three (.cons inward (.nil _))))) rfl
    ?_ rfl (wouldExtrude_draw 1 first (iff_of_true one_pos rfl)) (judge_turned markers) (turned one_pos three_pos).replays
    (.cons lifted (.nil _)) rfl (.cons lifted (.nil _)) rfl ?_ ?_ admitted
  · simp only [List.forall_mem_cons]
    exact ⟨rfl, rfl, rfl, rfl, List.forall_mem_nil _⟩
  · simp only [List.forall_mem_cons]
    exact ⟨wouldExtrude_lift 1, List.forall_mem_nil _⟩
  · simp only [List.cons_append, List.nil_append, List.forall_mem_cons]
    exact ⟨lower_spot le_rfl, lower_spot le_rfl, lower_spot le_rfl, lower_spot le_rfl, lower_spot zero_le_one,
      List.forall_mem_nil _⟩

end Lane

/-- A loop is kept because of the line between its moves, and the one notice of the account tells of it. -/
theorem Pass.accounted_of_turned :
    ∃ rewritten, (⟨Lane.tuning 2, true⟩ : Pass Exact).rewrite
        [Lane.home, Lane.draw 1 1, Lane.turn, Lane.draw 3 3, Lane.draw 0 3, Lane.lift 1] = .ok rewritten ∧
      rewritten.report.notices = [⟨2, Lane.turn⟩] ∧ rewritten.report.closedLoops = 1 ∧
        rewritten.report.scarfedLoops + rewritten.report.skippedLoops = 0 ∧
          ∃ run, (⟨2, Lane.turn⟩ : Notice Exact).Tells (Lane.tuning 2)
            [Lane.home, Lane.draw 1 1, Lane.turn, Lane.draw 3 3, Lane.draw 0 3, Lane.lift 1] run := by
  obtain ⟨lowest, cut, rewritten, written⟩ := Lane.rewrite_turned true
  obtain ⟨_, _, _, _, _, _, _, _, tells⟩ := accounted_of_rewrite written
  obtain ⟨_, _, floor, lowest', _, cut', rfl⟩ := rewrite_eq_ok_iff.mp written
  cases lowest.symm.trans lowest'
  cases cut.symm.trans cut'
  obtain ⟨_, run, _, _, _, _, told⟩ := tells ⟨2, Lane.turn⟩ List.mem_cons_self
  exact ⟨_, written, rfl, rfl, rfl, run, told⟩

end Seam
