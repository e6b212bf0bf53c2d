import Seam.Proofs.Trip

/-!
How the blocks of a pass slice the program. The walk over a program makes one block
after the other (`Pass.walk_eq_ok_iff`): each is a line that would not extrude or the
longest run of extrusion at the machine that has met everything written before it, and
it stands for the lines that the walk steps over. So what is written is the program
with those slices exchanged that are loops and can be tapered
(`Pass.sliced_of_rewrite`).
-/
namespace Seam

namespace Block

variable {α : Type}

def isRun : Block α → Bool
  | .single _ => false
  | .run .. => true

def isReplaced : Block α → Bool
  | .run _ _ (.tapered _) => true
  | _ => false

theorem isUntouched_of_not_isReplaced {b : Block α} (kept : b.isReplaced = false) : b.IsUntouched := by
  intro verdict given
  cases b with
  | single c => cases given
  | run line commands verdict' =>
    cases given
    cases verdict with
    | tapered => cases kept
    | _ => rfl

private theorem length_verdicts (blocks : List (Block α)) : (blocks.filterMap verdict?).length = blocks.countP isRun := by
  induction blocks with
  | nil => rfl
  | cons b blocks ih =>
    cases b with
    | single c => rw [List.filterMap_cons_none (by rfl), ih, List.countP_cons_of_neg (by simp [isRun])]
    | run => rw [List.filterMap_cons_some (by rfl), List.length_cons, ih, List.countP_cons_of_pos (by rfl)]

theorem countP_isScarfed (blocks : List (Block α)) :
    (blocks.filterMap verdict?).countP Verdict.isScarfed = blocks.countP isReplaced := by
  induction blocks with
  | nil => rfl
  | cons b blocks ih =>
    cases b with
    | single c => rw [List.filterMap_cons_none (by rfl), ih, List.countP_cons_of_neg (by simp [isReplaced])]
    | run line commands verdict =>
      rw [List.filterMap_cons_some (by rfl), List.countP_cons, List.countP_cons, ih]
      cases verdict <;> rfl

private theorem flatMap_emitted_of_none_replaced {blocks : List (Block α)} (none : blocks.countP isReplaced = 0) :
    blocks.flatMap emitted = blocks.flatMap source := by
  rw [List.countP_eq_zero] at none
  refine List.flatMap_congr fun b mem => emitted_of_isUntouched (isUntouched_of_not_isReplaced ?_)
  exact Bool.eq_false_iff.mpr (none b mem)

end Block

variable {α : Type} [Scalar α] {p : Pass α} {floor : α} {m next last : Machine α} {line : Nat}

/-- The first block that the machine makes of a program's rest, the block standing on
    the given line, and what of the rest it leaves. -/
inductive Slice (p : Pass α) (floor : α) (line : Nat) : Machine α → Block α → List (Command α) → Prop
  | single {m : Machine α} {c : Command α} {rest : List (Command α)} (silent : m.wouldExtrude c = .ok false) :
      Slice p floor line m (.single c) rest
  | run {r : Run α} {c : Command α} {cs rest : List (Command α)} {verdict : Verdict α} (first : r.commands = c :: cs)
      (would : r.start.wouldExtrude c = .ok true)
      (longest : r.start.extruding (r.commands ++ rest) = .ok (r.commands, r.finish))
      (judged : p.judge floor r = .ok verdict) : Slice p floor line r.start (.run line r.commands verdict) rest

/-- The machine goes from slice to slice through what is written for them, and is the
    second machine behind the last. -/
inductive Walk (p : Pass α) (floor : α) : Machine α → Nat → List (Command α) → List (Block α) → Machine α → Prop
  | nil (m : Machine α) (line : Nat) : Walk p floor m line [] [] m
  | cons {m next last : Machine α} {line : Nat} {b : Block α} {rest : List (Command α)} {blocks : List (Block α)}
      (slice : Slice p floor line m b rest) (replayed : m.replay b.emitted = .ok next)
      (behind : Walk p floor next (line + b.source.length) rest blocks last) :
      Walk p floor m line (b.source ++ rest) (b :: blocks) last

/-- A run of extrusion takes at least the line that would extrude. -/
theorem Run.commands_ne_nil {c : Command α} {rest : List (Command α)} {r : Run α}
    (would : m.wouldExtrude c = .ok true) (extracted : Run.extract m (c :: rest) = .ok r) : r.commands ≠ [] := by
  obtain ⟨_, extruding⟩ := Run.extract_eq_ok_iff.mp extracted
  intro none
  rw [none] at extruding
  exact Machine.extruding_ne_nil would extruding

namespace Slice

variable {b : Block α} {rest : List (Command α)}

theorem source_ne_nil (slice : Slice p floor line m b rest) : b.source ≠ [] := by
  cases slice with
  | single => exact List.cons_ne_nil _ []
  | run first =>
    intro none
    cases first.symm.trans none

/-- A block that is replaced is a run of extrusion, and the tapered form of it is written. -/
theorem tapered (slice : Slice p floor line m b rest) (replaced : b.isReplaced = true) :
    ∃ run segments, run.start = m ∧ run.commands = b.source ∧ m.extruding (b.source ++ rest) = .ok (b.source, run.finish) ∧
      Segment.path? m b.source = .ok (some segments) ∧
        Weave.weave p.tuning floor p.markers run segments = .ok (.tapered b.emitted) := by
  cases slice with
  | single => cases replaced
  | @run r _ _ _ verdict _ _ longest judged =>
    cases verdict with
    | tapered commands =>
      obtain ⟨_, segments, path, _, woven⟩ := Pass.judge_eq_tapered_iff.mp judged
      exact ⟨r, segments, rfl, rfl, longest, path, woven⟩
    | _ => cases replaced

end Slice

theorem Pass.block_eq_ok_iff {c : Command α} {cs : List (Command α)} {b : Block α} :
    p.block floor m line c cs = .ok b ↔ ∃ rest, c :: cs = b.source ++ rest ∧ Slice p floor line m b rest := by
  unfold Pass.block
  constructor
  · intro blocked
    obtain ⟨extrudes, would, blocked⟩ := Except.bind_eq_ok_iff.mp blocked
    cases extrudes with
    | false =>
      cases blocked
      exact ⟨cs, rfl, .single would⟩
    | true =>
      obtain ⟨r, extracted, blocked⟩ := Except.bind_eq_ok_iff.mp blocked
      obtain ⟨verdict, judged, same⟩ := Except.bind_eq_ok_iff.mp blocked
      cases same
      have some := Run.commands_ne_nil would extracted
      obtain ⟨rfl, longest⟩ := Run.extract_eq_ok_iff.mp extracted
      obtain ⟨_, rest, _, _, split, _⟩ := Machine.extruding_passage longest
      obtain ⟨d, ds, first⟩ := List.exists_cons_of_ne_nil some
      have head : c = d := by
        rw [first, List.cons_append, List.cons.injEq] at split
        exact split.1
      subst head
      exact ⟨rest, split, .run first would (split ▸ longest) judged⟩
  · rintro ⟨rest, split, slice⟩
    cases slice with
    | single silent =>
      cases split
      rw [silent]
      rfl
    | @run r _ _ _ verdict first would longest judged =>
      have whole : c :: cs = r.commands ++ rest := split
      obtain ⟨rfl, _⟩ := List.cons.inj (whole.trans (congrArg (· ++ rest) first))
      have extracted : Run.extract r.start (c :: cs) = .ok r :=
        Run.extract_eq_ok_iff.mpr ⟨rfl, by rw [whole]; exact longest⟩
      refine Except.bind_eq_ok_iff.mpr ⟨true, would, ?_⟩
      exact Except.bind_eq_ok_iff.mpr ⟨r, extracted, Except.bind_eq_ok_iff.mpr ⟨verdict, judged, rfl⟩⟩

namespace Walk

variable {cs : List (Command α)} {blocks : List (Block α)}

theorem source (walk : Walk p floor m line cs blocks last) : blocks.flatMap Block.source = cs := by
  induction walk with
  | nil => rfl
  | cons _ _ _ ih => rw [List.flatMap_cons, ih]

/-- Every block is a slice at the machine that has met what is written before it. -/
theorem slice (walk : Walk p floor m line cs blocks last) {front back : List (Block α)} {b : Block α}
    (split : blocks = front ++ b :: back) :
    ∃ mid, m.replay (front.flatMap Block.emitted) = .ok mid ∧
      Slice p floor (line + (front.flatMap Block.source).length) mid b (back.flatMap Block.source) := by
  induction walk generalizing front with
  | nil => cases front <;> cases split
  | @cons m next _ line d rest blocks slice replayed behind ih =>
    cases front with
    | nil =>
      cases split
      exact ⟨m, rfl, behind.source ▸ slice⟩
    | cons d' front =>
      cases split
      obtain ⟨mid, reached, cut⟩ := ih rfl
      refine ⟨mid, Machine.replay_append_eq_ok_iff.mpr ⟨next, replayed, reached⟩, ?_⟩
      rw [List.flatMap_cons, List.length_append, ← Nat.add_assoc]
      exact cut

end Walk

/-- The walk over a program makes one slice after the other, and always gets on. -/
theorem Pass.walk_eq_ok_iff {done blocks : List (Block α)} {cs : List (Command α)} :
    p.walk floor m line done cs = .ok blocks ↔
      ∃ rest last, blocks = done.reverse ++ rest ∧ Walk p floor m line cs rest last := by
  constructor
  · intro walked
    -- by the number of lines, since a slice may take many
    induction hn : cs.length using Nat.strongRecOn generalizing m line done cs with
    | ind n ih =>
      cases cs with
      | nil =>
        rw [walk] at walked
        cases walked
        exact ⟨[], m, (List.append_nil _).symm, .nil m line⟩
      | cons c cs =>
        rw [walk] at walked
        obtain ⟨b, blocked, walked⟩ := Except.bind_eq_ok_iff.mp walked
        obtain ⟨next, replayed, walked⟩ := Except.bind_eq_ok_iff.mp walked
        obtain ⟨left, split, slice⟩ := block_eq_ok_iff.mp blocked
        obtain ⟨d, ds, taken⟩ := List.exists_cons_of_ne_nil slice.source_ne_nil
        have dropped : cs.drop (b.source.length - 1) = left := by
          rw [taken, List.cons_append, List.cons.injEq] at split
          rw [split.2, taken, List.length_cons, Nat.add_sub_cancel, List.drop_left]
        have shorter : left.length < n := by
          rw [← hn, split, taken, List.length_append, List.length_cons]
          omega
        rw [dropped] at walked
        obtain ⟨rest, last, same, behind⟩ := ih _ shorter walked rfl
        refine ⟨b :: rest, last, ?_, ?_⟩
        · rw [same, List.reverse_cons, List.append_assoc, List.singleton_append]
        · rw [split]
          exact .cons slice replayed behind
  · rintro ⟨rest, last, rfl, walk⟩
    induction walk generalizing done with
    | nil => rw [Pass.walk, List.append_nil]
    | @cons m next _ line b left blocks slice replayed behind ih =>
      obtain ⟨c, cs, taken⟩ := List.exists_cons_of_ne_nil slice.source_ne_nil
      have blocked : p.block floor m line c (cs ++ left) = .ok b :=
        block_eq_ok_iff.mpr ⟨left, by rw [taken, List.cons_append], slice⟩
      have dropped : (cs ++ left).drop (b.source.length - 1) = left := by
        rw [taken, List.length_cons, Nat.add_sub_cancel, List.drop_left]
      rw [taken, List.cons_append, walk_cons blocked replayed, dropped, ih, List.reverse_cons, List.append_assoc,
        List.singleton_append]

theorem Pass.blocks_eq_ok_iff {blocks : List (Block α)} {cs : List (Command α)} :
    p.blocks floor cs = .ok blocks ↔ ∃ last, Walk p floor Machine.powerOn 1 cs blocks last := by
  rw [Pass.blocks, walk_eq_ok_iff]
  constructor
  · rintro ⟨_, last, rfl, walk⟩
    exact ⟨last, walk⟩
  · rintro ⟨last, walk⟩
    exact ⟨blocks, last, rfl, walk⟩

/-- What is written for a program is the program with some of its slices exchanged: every slice has at least one line,
    is written as it stands or is a run of extrusion and written in its tapered form, and the report counts both. -/
theorem Pass.sliced_of_rewrite {p : Pass α} {commands : List (Command α)} {rewritten : Rewritten α}
    (written : p.rewrite commands = .ok rewritten) :
    ∃ blocks : List (Block α), blocks.flatMap Block.source = commands ∧
      blocks.flatMap Block.emitted = rewritten.commands ∧ (∀ b ∈ blocks, b.source ≠ []) ∧
      (∀ front b back, blocks = front ++ b :: back →
        ∃ m, Machine.powerOn.replay (front.flatMap Block.emitted) = .ok m ∧
          Slice p rewritten.report.floor (1 + (front.flatMap Block.source).length) m b (back.flatMap Block.source) ∧
            (b.isReplaced = false ∧ b.emitted = b.source ∨ b.isReplaced = true ∧ ∃ run segments,
              run.start = m ∧ run.commands = b.source ∧
                m.extruding (b.source ++ back.flatMap Block.source) = .ok (b.source, run.finish) ∧
                Segment.path? m b.source = .ok (some segments) ∧
                  Weave.weave p.tuning rewritten.report.floor p.markers run segments = .ok (.tapered b.emitted))) ∧
      rewritten.report.extrusionRuns = blocks.countP Block.isRun ∧
      rewritten.report.scarfedLoops = blocks.countP Block.isReplaced ∧
      (rewritten.report.scarfedLoops = 0 → rewritten.commands = commands) ∧
      ∀ (m : Machine α) c rest r, m.wouldExtrude c = .ok true → Run.extract m (c :: rest) = .ok r → r.commands ≠ [] := by
  obtain ⟨_, _, floor, _, blocks, cut, rfl⟩ := rewrite_eq_ok_iff.mp written
  obtain ⟨last, walk⟩ := blocks_eq_ok_iff.mp cut
  have slices (front : List (Block α)) (b : Block α) (back : List (Block α)) (split : blocks = front ++ b :: back) :=
    walk.slice split
  have runs := Block.length_verdicts blocks
  have replaced := Block.countP_isScarfed blocks
  refine ⟨blocks, walk.source, rfl, fun b mem => ?_, fun front b back split => ?_, runs, replaced, fun none => ?_, ?_⟩
  · obtain ⟨front, back, split⟩ := List.append_of_mem mem
    obtain ⟨_, _, slice⟩ := slices front b back split
    exact slice.source_ne_nil
  · obtain ⟨m, reached, slice⟩ := slices front b back split
    refine ⟨m, reached, slice, ?_⟩
    cases taken : b.isReplaced with
    | false => exact .inl ⟨rfl, Block.emitted_of_isUntouched (Block.isUntouched_of_not_isReplaced taken)⟩
    | true => exact .inr ⟨rfl, slice.tapered taken⟩
  · exact (Block.flatMap_emitted_of_none_replaced (replaced.symm.trans none)).trans walk.source
  · intro m c rest r would extracted
    exact Run.commands_ne_nil would extracted

/-- The loop of a shuttle is the one slice that is exchanged. -/
theorem Pass.sliced_of_shuttle :
    ∃ rewritten, (⟨Lane.tuning 1, true⟩ : Pass Exact).rewrite [Lane.home, Lane.draw 3 3, Lane.draw 0 3, Lane.lift 1] =
        .ok rewritten ∧
      ∃ blocks : List (Block Exact),
        blocks.flatMap Block.source = [Lane.home, Lane.draw 3 3, Lane.draw 0 3, Lane.lift 1] ∧
          blocks.flatMap Block.emitted = rewritten.commands ∧ (∀ b ∈ blocks, b.source ≠ []) ∧
            blocks.countP Block.isRun = 1 ∧ blocks.countP Block.isReplaced = 1 := by
  obtain ⟨commands, _, lowest, cut, rewritten, written⟩ :=
    Lane.rewrite_shuttle (a := 3) (z := 1) (by norm_num) three_pos three_pos zero_le_one true
  obtain ⟨blocks, source, emitted, some, _, runs, replaced, _⟩ := sliced_of_rewrite written
  obtain ⟨_, _, floor, lowest', blocks', cut', rfl⟩ := rewrite_eq_ok_iff.mp written
  cases lowest.symm.trans lowest'
  cases cut.symm.trans cut'
  exact ⟨_, written, blocks, source, emitted, some, runs.symm, replaced.symm⟩

end Seam
