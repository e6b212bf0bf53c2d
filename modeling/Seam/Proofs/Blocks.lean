import Seam.Pass
import Seam.Proofs.Passage

/-!
How a pass cuts a program into blocks. The blocks stand for the lines of the
program one after the other, and the machine is followed through what is emitted
for them (`Chain`, `Pass.chain_of_blocks`). What a pass writes is what it emits for
the blocks (`Pass.rewrite_eq_ok_iff`), and a run is replaced only if it is a path
that can be tapered (`Pass.judge_eq_tapered_iff`).
-/
namespace Seam

/-- Every line of the run leaves the machine extruding. -/
def Run.Extrudes {α : Type} [Scalar α] (r : Run α) : Prop :=
  ∃ ts, Passage r.start ts r.finish ∧ ts.map (·.line) = r.commands ∧ ∀ t ∈ ts, t.after.extruded = true

/-- A loop that is replaced, with its path. -/
structure Loop (α : Type) [Scalar α] where
  run : Run α
  path : List (Segment α)

/-- The block is written as it stands. -/
def Block.IsUntouched {α : Type} (b : Block α) : Prop := ∀ verdict, b.verdict? = some verdict → verdict.isScarfed = false

theorem Block.isUntouched_single {α : Type} (c : Command α) : (Block.single c).IsUntouched := by
  intro verdict none
  cases none

theorem Block.not_isUntouched_tapered {α : Type} {line : Nat} {lines commands : List (Command α)} :
    ¬ (Block.run line lines (.tapered commands)).IsUntouched := by
  intro untouched
  cases untouched _ rfl

theorem Block.emitted_of_isUntouched {α : Type} {b : Block α} (untouched : b.IsUntouched) : b.emitted = b.source := by
  cases b with
  | single c => rfl
  | run line commands verdict =>
    cases verdict with
    | tapered => exact absurd untouched not_isUntouched_tapered
    | _ => rfl

/-- The machine goes from block to block through what is emitted for them, meets
    the given loops that are replaced, and is the second machine behind them. -/
inductive Chain {α : Type} [Scalar α] (p : Pass α) (floor : α) :
    Machine α → List (Block α) → List (Loop α) → Machine α → Prop
  | nil (m : Machine α) : Chain p floor m [] [] m
  | untouched {m next last : Machine α} {b : Block α} {blocks : List (Block α)} {loops : List (Loop α)}
      (kept : b.IsUntouched) (replayed : m.replay b.source = .ok next) (rest : Chain p floor next blocks loops last) :
      Chain p floor m (b :: blocks) loops last
  | tapered {run : Run α} {segments : List (Segment α)} {line : Nat} {commands : List (Command α)}
      {next last : Machine α} {blocks : List (Block α)} {loops : List (Loop α)} (extrudes : run.Extrudes)
      (path : Segment.path? run.start run.commands = .ok (some segments))
      (woven : Weave.weave p.tuning floor p.markers run segments = .ok (.tapered commands))
      (replayed : run.start.replay commands = .ok next) (rest : Chain p floor next blocks loops last) :
      Chain p floor run.start (.run line run.commands (.tapered commands) :: blocks) (⟨run, segments⟩ :: loops) last

variable {α : Type} [Scalar α] {m mid last : Machine α} {p : Pass α} {floor : α}

/-- The lines after which the machine is still extruding are a beginning of the
    given lines, and the machine passes through them. -/
theorem Machine.extruding_passage {cs taken : List (Command α)} (run : m.extruding cs = .ok (taken, last)) :
    ∃ ts rest, Passage m ts last ∧ ts.map (·.line) = taken ∧ cs = taken ++ rest ∧ ∀ t ∈ ts, t.after.extruded = true := by
  induction cs generalizing m taken with
  | nil => cases run; exact ⟨[], [], .nil _, rfl, rfl, List.forall_mem_nil _⟩
  | cons c cs ih =>
    unfold extruding at run
    cases stepped : m.after c with
    | error => rw [stepped] at run; cases run
    | ok next =>
      simp only [stepped] at run
      by_cases extruded : next.extruded = true
      · rw [if_pos extruded] at run
        rcases continued : next.extruding cs with fault | ⟨more, ends⟩ <;> rw [continued] at run <;> cases run
        obtain ⟨ts, rest, passes, lines, split, all⟩ := ih continued
        exact ⟨⟨m, c, next⟩ :: ts, rest, .cons stepped passes, by rw [List.map_cons, lines],
          by rw [split, List.cons_append], List.forall_mem_cons.mpr ⟨extruded, all⟩⟩
      · rw [if_neg extruded] at run
        cases run
        exact ⟨[], c :: cs, .nil _, rfl, rfl, List.forall_mem_nil _⟩

theorem Machine.extruding_ne_nil {c : Command α} {cs : List (Command α)} (would : m.wouldExtrude c = .ok true) :
    m.extruding (c :: cs) ≠ .ok ([], last) := by
  intro run
  unfold wouldExtrude at would
  split at would
  · obtain ⟨next, stepped, extruded⟩ := Except.map_eq_ok_iff.mp would
    unfold extruding at run
    simp only [stepped, extruded, ↓reduceIte] at run
    split at run <;> cases run
  · cases would

theorem Run.eq_of_start {r s : Run α} (start : r.start = s.start) (commands : r.commands = s.commands) : r = s := by
  obtain ⟨_, _, finish, replays⟩ := r
  obtain ⟨_, _, finish', replays'⟩ := s
  cases start
  cases commands
  cases replays.symm.trans replays'
  rfl

theorem Run.extract_eq_ok_iff {cs : List (Command α)} {r : Run α} :
    Run.extract m cs = .ok r ↔ r.start = m ∧ m.extruding cs = .ok (r.commands, r.finish) := by
  unfold extract
  constructor
  · intro extracted
    split at extracted
    · cases extracted
    · next run => cases extracted; exact ⟨rfl, run⟩
  · rintro ⟨rfl, extruding⟩
    split
    · next run => cases extruding.symm.trans run
    · next run => cases extruding.symm.trans run; rfl

theorem Run.extrudes_of_extract {cs : List (Command α)} {r : Run α} (extracted : Run.extract m cs = .ok r) : r.Extrudes := by
  obtain ⟨rfl, run⟩ := Run.extract_eq_ok_iff.mp extracted
  obtain ⟨ts, _, passes, lines, _, all⟩ := Machine.extruding_passage run
  exact ⟨ts, passes, lines, all⟩

/-- A run is replaced exactly if it is closed, is a path long enough, and can be tapered. -/
theorem Pass.judge_eq_tapered_iff {r : Run α} {commands : List (Command α)} :
    p.judge floor r = .ok (.tapered commands) ↔
      r.isClosed p.tuning.loopTolerance = true ∧ ∃ segments, Segment.path? r.start r.commands = .ok (some segments) ∧
        ¬ Segment.pathLength segments < p.tuning.taperResolution ∧
          Weave.weave p.tuning floor p.markers r segments = .ok (.tapered commands) := by
  unfold Pass.judge
  by_cases closed : r.isClosed p.tuning.loopTolerance = true
  case neg => simp [closed]
  simp only [closed, Bool.not_true, Bool.false_eq_true, ↓reduceIte, true_and]
  rcases path : Segment.path? r.start r.commands with fault | _ | segments
  · simp [bind, Except.bind]
  · simp [bind, Except.bind, pure, Except.pure]
  · by_cases short : Segment.pathLength segments < p.tuning.taperResolution
    · simp [bind, Except.bind, pure, Except.pure, short]
    · rcases woven : Weave.weave p.tuning floor p.markers r segments with fault | tapered | culprit <;>
        simp [bind, Except.bind, pure, Except.pure, short, woven]

namespace Chain

variable {loops : List (Loop α)}

theorem replay {blocks : List (Block α)} (chain : Chain p floor m blocks loops last) :
    m.replay (blocks.flatMap Block.emitted) = .ok last := by
  induction chain with
  | nil => rfl
  | untouched kept replayed _ ih =>
    rw [List.flatMap_cons, Block.emitted_of_isUntouched kept]
    exact Machine.replay_append_eq_ok_iff.mpr ⟨_, replayed, ih⟩
  | tapered _ _ _ replayed _ ih => exact Machine.replay_append_eq_ok_iff.mpr ⟨_, replayed, ih⟩

theorem of_append {front back : List (Block α)} (chain : Chain p floor m (front ++ back) loops last) :
    ∃ before behind mid, loops = before ++ behind ∧ Chain p floor m front before mid ∧
      Chain p floor mid back behind last := by
  induction front generalizing m loops with
  | nil => exact ⟨[], loops, m, rfl, .nil m, chain⟩
  | cons b front ih =>
    cases chain with
    | untouched kept replayed rest =>
      obtain ⟨before, behind, mid, split, here, there⟩ := ih rest
      exact ⟨before, behind, mid, split, .untouched kept replayed here, there⟩
    | tapered extrudes path woven replayed rest =>
      obtain ⟨before, behind, mid, split, here, there⟩ := ih rest
      exact ⟨_ :: before, behind, mid, congrArg _ split, .tapered extrudes path woven replayed here, there⟩

theorem append {front back : List (Block α)} {before behind : List (Loop α)} (here : Chain p floor m front before mid)
    (there : Chain p floor mid back behind last) : Chain p floor m (front ++ back) (before ++ behind) last := by
  induction here with
  | nil => exact there
  | untouched kept replayed _ ih => exact .untouched kept replayed (ih there)
  | tapered extrudes path woven replayed _ ih => exact .tapered extrudes path woven replayed (ih there)

/-- The chain across a line of its own. -/
theorem behind {c : Command α} {blocks : List (Block α)} (chain : Chain p floor m (.single c :: blocks) loops last) :
    ∃ next, m.after c = .ok next ∧ Chain p floor next blocks loops last := by
  cases chain with
  | untouched _ replayed rest =>
    obtain ⟨next, stepped, same⟩ := Machine.replay_cons_eq_ok_iff.mp replayed
    cases same
    exact ⟨_, stepped, rest⟩

/-- The chain across a loop that is replaced. -/
theorem across {line : Nat} {lines commands : List (Command α)} {blocks : List (Block α)}
    (chain : Chain p floor m (.run line lines (.tapered commands) :: blocks) loops last) :
    ∃ run segments next rest, loops = ⟨run, segments⟩ :: rest ∧ run.start = m ∧ run.commands = lines ∧
      Segment.path? run.start run.commands = .ok (some segments) ∧ m.replay commands = .ok next ∧
        Chain p floor next blocks rest last := by
  generalize same : .run line lines (.tapered commands) :: blocks = all at chain
  cases chain with
  | nil => cases same
  | untouched kept =>
    cases same
    exact absurd kept Block.not_isUntouched_tapered
  | tapered _ path _ replayed rest =>
    obtain ⟨block, rfl⟩ := List.cons.inj same
    cases block
    exact ⟨_, _, _, _, rfl, rfl, rfl, path, replayed, rest⟩

theorem of_lines {cs : List (Command α)} (replayed : m.replay cs = .ok last) :
    Chain p floor m (cs.map .single) [] last := by
  induction cs generalizing m with
  | nil => cases replayed; exact .nil _
  | cons c cs ih =>
    obtain ⟨next, stepped, rest⟩ := Machine.replay_cons_eq_ok_iff.mp replayed
    refine .untouched (Block.isUntouched_single c) ?_ (ih rest)
    exact Machine.replay_cons_eq_ok_iff.mpr ⟨next, stepped, rfl⟩

/-- The chain into an untouched block, of which the first lines are taken one by one. -/
theorem taken {front back : List (Block α)} {b : Block α} {taken left : List (Command α)}
    (chain : Chain p floor m (front ++ b :: back) loops last) (untouched : b.IsUntouched)
    (began : b.source = taken ++ left) :
    ∃ met here, Chain p floor m (front ++ taken.map .single) met here := by
  obtain ⟨before, _, mid, _, reached, behind⟩ := chain.of_append
  cases behind with
  | untouched _ followed =>
    rw [began] at followed
    obtain ⟨here, first, _⟩ := Machine.replay_append_eq_ok_iff.mp followed
    exact ⟨_, here, reached.append (of_lines first)⟩
  | tapered => exact absurd untouched Block.not_isUntouched_tapered

end Chain

namespace Pass

/-- The block at the front stands for the lines that are taken off. -/
private theorem chain_of_block {line : Nat} {c : Command α} {rest : List (Command α)} {b : Block α} {next : Machine α}
    (blocked : p.block floor m line c rest = .ok b) (replayed : m.replay b.emitted = .ok next) :
    c :: rest = b.source ++ rest.drop (b.source.length - 1) ∧
      ∃ loops, Chain p floor m [b] loops next := by
  rw [block, Except.bind_eq_ok_iff] at blocked
  obtain ⟨extrudes, would, blocked⟩ := blocked
  cases extrudes with
  | false =>
    cases blocked
    obtain ⟨_, stepped, ends⟩ := Machine.replay_cons_eq_ok_iff.mp replayed
    cases ends
    exact ⟨rfl, [], .untouched (Block.isUntouched_single c) replayed (.nil _)⟩
  | true =>
    obtain ⟨r, extracted, settled⟩ := Except.bind_eq_ok_iff.mp blocked
    obtain ⟨verdict, judged, same⟩ := Except.bind_eq_ok_iff.mp settled
    cases same
    obtain ⟨start, run⟩ := Run.extract_eq_ok_iff.mp extracted
    obtain ⟨ts, left, passes, lines, split, all⟩ := Machine.extruding_passage run
    subst start
    refine ⟨?_, ?_⟩
    rotate_left
    · cases verdict with
      | tapered commands =>
        obtain ⟨_, segments, path, _, woven⟩ := judge_eq_tapered_iff.mp judged
        exact ⟨_, .tapered ⟨ts, passes, lines, all⟩ path woven replayed (.nil next)⟩
      | _ => exact ⟨[], .untouched (fun _ same => by cases same; rfl) replayed (.nil next)⟩
    show c :: rest = r.commands ++ rest.drop (r.commands.length - 1)
    cases taken : r.commands with
    | nil => exact absurd (taken ▸ run) (Machine.extruding_ne_nil would)
    | cons c' more =>
      rw [taken, List.cons_append, List.cons.injEq] at split
      obtain ⟨same, split⟩ := split
      rw [same, split, List.length_cons, Nat.add_sub_cancel, List.drop_left, List.cons_append]

/-- The blocks stand for the lines of the program, and the machine is followed through what is emitted. -/
private theorem chain_of_walk {line : Nat} {done blocks : List (Block α)} {cs : List (Command α)}
    (walked : p.walk floor m line done cs = .ok blocks) :
    ∃ rest loops last, blocks = done.reverse ++ rest ∧ rest.flatMap Block.source = cs ∧
      Chain p floor m rest loops last := by
  induction hn : cs.length using Nat.strongRecOn generalizing m line done cs with
  | ind n ih =>
    cases cs with
    | nil =>
      rw [walk] at walked
      cases walked
      exact ⟨[], [], m, (List.append_nil _).symm, rfl, .nil m⟩
    | cons c rest =>
      rw [walk] at walked
      obtain ⟨b, blocked, walked⟩ := Except.bind_eq_ok_iff.mp walked
      obtain ⟨next, replayed, walked⟩ := Except.bind_eq_ok_iff.mp walked
      obtain ⟨split, before, here⟩ := chain_of_block blocked replayed
      have shorter : (rest.drop (b.source.length - 1)).length < n := by
        rw [← hn, List.length_drop, List.length_cons]
        omega
      obtain ⟨more, behind, last, same, source, there⟩ := ih _ shorter walked rfl
      refine ⟨b :: more, _, last, ?_, ?_, here.append there⟩
      · rw [same, List.reverse_cons, List.append_assoc, List.singleton_append]
      · rw [List.flatMap_cons, source, ← split]

theorem chain_of_blocks {blocks : List (Block α)} {cs : List (Command α)} (cut : p.blocks floor cs = .ok blocks) :
    blocks.flatMap Block.source = cs ∧ ∃ loops last, Chain p floor Machine.powerOn blocks loops last := by
  obtain ⟨rest, loops, last, same, source, chain⟩ := chain_of_walk cut
  rw [List.reverse_nil, List.nil_append] at same
  subst same
  exact ⟨source, loops, last, chain⟩

theorem walk_cons {line : Nat} {done : List (Block α)} {c : Command α} {rest : List (Command α)} {b : Block α}
    {next : Machine α} (blocked : p.block floor m line c rest = .ok b) (replayed : m.replay b.emitted = .ok next) :
    p.walk floor m line done (c :: rest) =
      p.walk floor next (line + b.source.length) (b :: done) (rest.drop (b.source.length - 1)) := by
  rw [walk, blocked]
  show (m.replay b.emitted).bind _ = _
  rw [replayed]
  rfl

theorem block_of_silent {line : Nat} {c : Command α} {rest : List (Command α)} (silent : m.wouldExtrude c = .ok false) :
    p.block floor m line c rest = .ok (.single c) := by
  rw [block, silent]
  rfl

theorem block_of_judge {line : Nat} {c : Command α} {rest : List (Command α)} {r : Run α} {verdict : Verdict α}
    (would : r.start.wouldExtrude c = .ok true)
    (extruding : r.start.extruding (c :: rest) = .ok (r.commands, r.finish)) (judged : p.judge floor r = .ok verdict) :
    p.block floor r.start line c rest = .ok (.run line r.commands verdict) := by
  have extracted : Run.extract r.start (c :: rest) = .ok r := Run.extract_eq_ok_iff.mpr ⟨rfl, extruding⟩
  rw [block, would]
  show (Run.extract r.start (c :: rest)).bind _ = _
  rw [extracted]
  show (p.judge floor r).bind _ = _
  rw [judged]
  rfl

theorem walk_of_silent {line : Nat} {done : List (Block α)} {ts : List (Transition α)} (passes : Passage m ts last)
    (silent : ∀ t ∈ ts, t.before.wouldExtrude t.line = .ok false) :
    p.walk floor m line done (ts.map (·.line)) = .ok (done.reverse ++ (ts.map (·.line)).map .single) := by
  induction passes generalizing line done with
  | nil => rw [List.map_nil, walk, List.map_nil, List.append_nil]
  | cons stepped rest ih =>
    obtain ⟨here, others⟩ := List.forall_mem_cons.mp silent
    rw [List.map_cons, walk_cons (block_of_silent here) (Machine.replay_cons_eq_ok_iff.mpr ⟨_, stepped, rfl⟩)]
    refine (ih others).trans ?_
    rw [List.reverse_cons, List.append_assoc, List.singleton_append, List.map_cons]

/-- What a pass writes, and when it writes anything. -/
theorem rewrite_eq_ok_iff {commands : List (Command α)} {rewritten : Rewritten α} :
    p.rewrite commands = .ok rewritten ↔
      p.tuning.check = .ok () ∧ Admission.check commands = .ok () ∧ ∃ floor, Floor.ofCommands commands = .ok floor ∧
        ∃ blocks, p.blocks floor commands = .ok blocks ∧
          rewritten = ⟨blocks.flatMap Block.emitted, Report.ofBlocks floor blocks⟩ := by
  simp only [rewrite, Except.bind_eq_ok_iff, Except.mapError_eq_ok_iff, pure, Except.pure, Except.ok.injEq]
  constructor
  · rintro ⟨_, usable, _, admitted, floor, lowest, blocks, cut, rfl⟩
    exact ⟨usable, admitted, floor, lowest, blocks, cut, rfl⟩
  · rintro ⟨usable, admitted, floor, lowest, blocks, cut, rfl⟩
    exact ⟨(), usable, (), admitted, floor, lowest, blocks, cut, rfl⟩

end Pass

end Seam
