import Seam.Proofs.Made
import Seam.Proofs.Trip

/-!
What markers change. A pass with markers and one without meet the same machines, as comments
do nothing, and come to the same verdicts (`Pass.judge_marked`), so the blocks of the one are
those of the other with markers around the replaced ones (`Pass.walk_marked`). What is
written differs by these brackets alone, one pair behind the other
(`Pass.bracketed_of_rewrite`).
-/
namespace Seam

section
variable {α : Type}

/-- Is the line one of the two markers? -/
def Command.isMarker : Command α → Bool
  | .comment text => text = Weave.startMarker || text = Weave.endMarker
  | _ => false

def Weave.Outcome.marked : Outcome α → Outcome α
  | .tapered commands => .tapered (bracket true commands)
  | outcome => outcome

def Verdict.marked : Verdict α → Verdict α
  | .tapered commands => .tapered (Weave.bracket true commands)
  | verdict => verdict

namespace Block

/-- The block with what is written for it between the markers if it is replaced. -/
def marked : Block α → Block α
  | .single c => .single c
  | .run line commands verdict => .run line commands verdict.marked

/-- What is written for the block, between the markers if it is replaced. -/
def framed (b : Block α) : List (Command α) := Weave.bracket b.isReplaced b.emitted

variable (b : Block α)

@[simp] theorem source_marked : b.marked.source = b.source := by cases b <;> rfl

private theorem emitted_marked : b.marked.emitted = b.framed := by
  cases b with
  | single => rfl
  | run _ _ verdict => cases verdict <;> rfl

private theorem verdict?_marked : b.marked.verdict? = b.verdict?.map Verdict.marked := by cases b <;> rfl

private theorem notice?_marked : b.marked.notice? = b.notice? := by
  cases b with
  | single => rfl
  | run _ _ verdict => cases verdict <;> rfl

end Block

private theorem Report.ofBlocks_marked (floor : α) (blocks : List (Block α)) :
    ofBlocks floor (blocks.map Block.marked) = ofBlocks floor blocks := by
  have notices : (blocks.map Block.marked).filterMap Block.notice? = blocks.filterMap Block.notice? := by
    rw [List.filterMap_map]
    exact List.filterMap_congr fun b _ => b.notice?_marked
  have verdicts : (blocks.map Block.marked).filterMap Block.verdict? =
      (blocks.filterMap Block.verdict?).map Verdict.marked := by
    rw [List.filterMap_map, List.map_filterMap]
    exact List.filterMap_congr fun b _ => b.verdict?_marked
  have count (q : Verdict α → Bool) (blind : ∀ v : Verdict α, q v.marked = q v) (verdicts : List (Verdict α)) :
      (verdicts.map Verdict.marked).countP q = verdicts.countP q := by
    rw [List.countP_map]
    exact List.countP_congr fun v _ => by rw [Function.comp_apply, blind]
  simp only [ofBlocks, notices, verdicts, List.length_map]
  rw [count _ (fun v => by cases v <;> rfl), count _ (fun v => by cases v <;> rfl), count _ (fun v => by cases v <;> rfl)]

namespace Block

private theorem countP_framed (b : Block α) :
    b.framed.countP Command.isMarker = b.emitted.countP Command.isMarker + if b.isReplaced then 2 else 0 := by
  cases replaced : b.isReplaced with
  | false => rw [framed, replaced]; rfl
  | true =>
    rw [framed, replaced]
    show ((.comment Weave.startMarker : Command α) :: (b.emitted ++ [.comment Weave.endMarker])).countP _ = _
    rw [List.countP_cons_of_pos rfl, List.countP_append]
    rfl

private theorem filter_framed {b : Block α} (clear : ∀ c ∈ b.emitted, c.isMarker = false) :
    b.framed.filter Command.isMarker =
      if b.isReplaced then [.comment Weave.startMarker, .comment Weave.endMarker] else [] := by
  have none : b.emitted.filter Command.isMarker = [] :=
    List.filter_eq_nil_iff.mpr fun c mem => Bool.eq_false_iff.mp (clear c mem)
  cases replaced : b.isReplaced with
  | false => rw [framed, replaced]; exact none
  | true =>
    rw [framed, replaced]
    show ((.comment Weave.startMarker : Command α) :: (b.emitted ++ [.comment Weave.endMarker])).filter _ = _
    rw [List.filter_cons_of_pos rfl, List.filter_append, none]
    rfl

private theorem countP_flatMap_framed (blocks : List (Block α)) :
    (blocks.flatMap framed).countP Command.isMarker =
      (blocks.flatMap emitted).countP Command.isMarker + 2 * blocks.countP isReplaced := by
  induction blocks with
  | nil => rfl
  | cons b blocks ih =>
    rw [List.flatMap_cons, List.flatMap_cons, List.countP_append, List.countP_append, ih, countP_framed, List.countP_cons]
    split <;> omega

/-- Where no line that is emitted is a marker, the markers are those of the replaced blocks, pair behind pair. -/
private theorem filter_flatMap_framed {blocks : List (Block α)} (clear : ∀ c ∈ blocks.flatMap emitted, c.isMarker = false) :
    (blocks.flatMap framed).filter Command.isMarker =
      (List.replicate (blocks.countP isReplaced) [.comment Weave.startMarker, .comment Weave.endMarker]).flatten := by
  induction blocks with
  | nil => rfl
  | cons b blocks ih =>
    rw [List.flatMap_cons, List.forall_mem_append] at clear
    rw [List.flatMap_cons, List.filter_append, filter_framed clear.1, ih clear.2, List.countP_cons]
    split
    · rw [List.replicate_succ, List.flatten_cons]
    · rfl

end Block

end

variable {α : Type} [Scalar α] {tuning : Tuning α} {floor : α} {m : Machine α}

private theorem Except.map_bind {ε β γ δ : Type} (x : Except ε β) (f : β → Except ε γ) (g : γ → δ) :
    (x >>= f).map g = x >>= fun b => (f b).map g := by
  cases x <;> rfl

private theorem Weave.weave_marked (run : Run α) (segments : List (Segment α)) :
    weave tuning floor true run segments = (weave tuning floor false run segments).map Outcome.marked := by
  rw [weave_eq, weave_eq]
  cases (steps tuning segments).findSome? Step.alteration? <;> simp only [Except.map_bind] <;> rfl

namespace Pass

theorem judge_marked (run : Run α) :
    (⟨tuning, true⟩ : Pass α).judge floor run = ((⟨tuning, false⟩ : Pass α).judge floor run).map Verdict.marked := by
  unfold judge
  split
  · rfl
  · rw [Except.map_bind]
    refine Except.bind_congr_of_ok fun path? _ => ?_
    cases path? with
    | none => rfl
    | some segments =>
      simp only
      split
      · rfl
      · rw [Weave.weave_marked]
        rcases Weave.weave tuning floor false run segments with _ | _ | _ <;> rfl

private theorem block_marked (line : ℕ) (c : Command α) (rest : List (Command α)) :
    (⟨tuning, true⟩ : Pass α).block floor m line c rest =
      ((⟨tuning, false⟩ : Pass α).block floor m line c rest).map Block.marked := by
  unfold block
  rw [Except.map_bind]
  refine Except.bind_congr_of_ok fun extrudes _ => ?_
  cases extrudes with
  | false => rfl
  | true =>
    simp only [↓reduceIte, Except.map_bind, judge_marked]
    refine Except.bind_congr_of_ok fun run _ => ?_
    cases (⟨tuning, false⟩ : Pass α).judge floor run <;> rfl

theorem walk_marked (line : ℕ) (done : List (Block α)) (cs : List (Command α)) :
    (⟨tuning, true⟩ : Pass α).walk floor m line (done.map Block.marked) cs =
      ((⟨tuning, false⟩ : Pass α).walk floor m line done cs).map (List.map Block.marked) := by
  -- by the number of lines, since a block may take many
  induction hn : cs.length using Nat.strongRecOn generalizing m line done cs with
  | ind n ih =>
    cases cs with
    | nil =>
      rw [walk, walk, ← List.map_reverse]
      rfl
    | cons c rest =>
      rw [walk, walk, block_marked, Except.map_bind]
      cases (⟨tuning, false⟩ : Pass α).block floor m line c rest with
      | error => rfl
      | ok b =>
        have met : m.replay b.marked.emitted = m.replay b.emitted := by
          rw [Block.emitted_marked, Block.framed, Weave.replay_bracket]
        have shorter : (rest.drop (b.source.length - 1)).length < n := by
          rw [← hn, List.length_drop, List.length_cons]
          omega
        show (m.replay b.marked.emitted >>= fun next => _) = ((m.replay b.emitted >>= fun next => _)).map _
        rw [met, Except.map_bind]
        refine Except.bind_congr_of_ok fun next _ => ?_
        rw [Block.source_marked]
        exact ih _ shorter _ (b :: done) _ rfl

end Pass

/-- A pass without markers writes none but those of the program. -/
private theorem Block.mem_source_of_isMarker {p : Pass α} {line : ℕ} {b : Block α} {rest : List (Command α)}
    (slice : Slice p floor line m b rest) (plain : p.markers = false) {c : Command α}
    (mem : c ∈ b.emitted) (marker : c.isMarker = true) : c ∈ b.source := by
  cases replaced : b.isReplaced with
  | false => rwa [← emitted_of_isUntouched (isUntouched_of_not_isReplaced replaced)]
  | true =>
    obtain ⟨run, segments, rfl, source, _, path, woven⟩ := slice.tapered replaced
    rw [← source] at path ⊢
    obtain ⟨inner, same, lines⟩ := Weave.exists_inner path woven
    rw [plain] at same
    rw [same] at mem
    refine (lines c mem).resolve_right fun made => ?_
    cases c with
    | instruction => cases marker
    | comment | verbatim => exact made.2 rfl

/-- What two passes over one program write that differ in their markers alone. -/
structure Bracketed (tuning : Tuning α) (commands : List (Command α)) (blocks : List (Block α))
    (plain marked : Rewritten α) : Prop where
  cut : (⟨tuning, false⟩ : Pass α).blocks plain.report.floor commands = .ok blocks
  source : blocks.flatMap Block.source = commands
  report : marked.report = plain.report
  written : plain.commands = blocks.flatMap Block.emitted
  /-- Every replaced block stands between a pair of markers, and nothing else does. -/
  framed : marked.commands = blocks.flatMap fun b =>
    if b.isReplaced then .comment Weave.startMarker :: (b.emitted ++ [.comment Weave.endMarker]) else b.emitted
  /-- There are as many pairs as replaced loops. -/
  pairs : plain.report.scarfedLoops = blocks.countP Block.isReplaced
  more : marked.commands.countP Command.isMarker =
    plain.commands.countP Command.isMarker + 2 * plain.report.scarfedLoops
  /-- Without markers none are written but those of the program. -/
  own : ∀ c ∈ plain.commands, c.isMarker = true → c ∈ commands
  /-- Where the program has none, the markers are pair behind pair. -/
  paired : (∀ c ∈ commands, c.isMarker = false) → marked.commands.filter Command.isMarker =
    (List.replicate plain.report.scarfedLoops [.comment Weave.startMarker, .comment Weave.endMarker]).flatten

namespace Pass

private theorem blocks_marked (commands : List (Command α)) :
    (⟨tuning, true⟩ : Pass α).blocks floor commands =
      ((⟨tuning, false⟩ : Pass α).blocks floor commands).map (List.map Block.marked) :=
  walk_marked 1 [] commands

private theorem report_marked (commands : List (Command α)) :
    ((⟨tuning, true⟩ : Pass α).rewrite commands).map Rewritten.report =
      ((⟨tuning, false⟩ : Pass α).rewrite commands).map Rewritten.report := by
  simp only [rewrite, Except.map_bind, blocks_marked]
  refine Except.bind_congr_of_ok fun _ _ => Except.bind_congr_of_ok fun _ _ => Except.bind_congr_of_ok fun floor _ => ?_
  cases (⟨tuning, false⟩ : Pass α).blocks floor commands with
  | error => rfl
  | ok blocks => exact congrArg Except.ok (Report.ofBlocks_marked floor blocks)

/-- What is written without markers is written with them between the markers. -/
private theorem exists_bracketed {commands : List (Command α)} {plain : Rewritten α}
    (written : (⟨tuning, false⟩ : Pass α).rewrite commands = .ok plain) :
    ∃ blocks marked, (⟨tuning, true⟩ : Pass α).rewrite commands = .ok marked ∧
      Bracketed tuning commands blocks plain marked := by
  obtain ⟨usable, admitted, floor, lowest, blocks, cut, rfl⟩ := rewrite_eq_ok_iff.mp written
  have cut' : (⟨tuning, true⟩ : Pass α).blocks floor commands = .ok (blocks.map Block.marked) := by
    rw [blocks_marked, cut]
    rfl
  obtain ⟨last, walk⟩ := blocks_eq_ok_iff.mp cut
  have framed : (blocks.map Block.marked).flatMap Block.emitted = blocks.flatMap Block.framed := by
    rw [List.flatMap_map]
    exact List.flatMap_congr fun b _ => b.emitted_marked
  have own (c : Command α) (mem : c ∈ blocks.flatMap Block.emitted) (marker : c.isMarker = true) : c ∈ commands := by
    obtain ⟨b, listed, here⟩ := List.mem_flatMap.mp mem
    obtain ⟨front, back, split⟩ := List.append_of_mem listed
    obtain ⟨_, _, slice⟩ := walk.slice split
    rw [← walk.source]
    exact List.mem_flatMap.mpr ⟨b, listed, Block.mem_source_of_isMarker slice rfl here marker⟩
  have scarfed := Block.countP_isScarfed blocks
  refine ⟨blocks, _, rewrite_eq_ok_iff.mpr ⟨usable, admitted, floor, lowest, _, cut', rfl⟩, cut, walk.source,
    Report.ofBlocks_marked floor blocks, rfl, ?_, scarfed, ?_, own, fun clear => ?_⟩
  · refine framed.trans (List.flatMap_congr fun b _ => ?_)
    cases replaced : b.isReplaced with
    | false => rw [Block.framed, replaced]; rfl
    | true => rw [Block.framed, replaced]; rfl
  · show ((blocks.map Block.marked).flatMap Block.emitted).countP _ = _ + 2 * (blocks.filterMap Block.verdict?).countP _
    rw [framed, Block.countP_flatMap_framed, scarfed]
  · show ((blocks.map Block.marked).flatMap Block.emitted).filter _ =
      (List.replicate ((blocks.filterMap Block.verdict?).countP _) _).flatten
    rw [framed, scarfed]
    refine Block.filter_flatMap_framed fun c mem => ?_
    by_contra marker
    rw [Bool.not_eq_false] at marker
    cases (clear c (own c mem marker)).symm.trans marker

/-- Two passes that differ in their markers alone refuse a program alike, or give the same account of it and write the
    same, but for a pair of markers around each replaced loop. -/
theorem bracketed_of_rewrite (tuning : Tuning α) (commands : List (Command α)) :
    (∃ failure, (⟨tuning, true⟩ : Pass α).rewrite commands = .error failure ∧
      (⟨tuning, false⟩ : Pass α).rewrite commands = .error failure) ∨
    ∃ blocks plain marked, (⟨tuning, true⟩ : Pass α).rewrite commands = .ok marked ∧
      (⟨tuning, false⟩ : Pass α).rewrite commands = .ok plain ∧ Bracketed tuning commands blocks plain marked := by
  have reports : ((⟨tuning, true⟩ : Pass α).rewrite commands).map Rewritten.report =
      ((⟨tuning, false⟩ : Pass α).rewrite commands).map Rewritten.report := report_marked commands
  cases written : (⟨tuning, false⟩ : Pass α).rewrite commands with
  | error failure =>
    rw [written] at reports
    cases refused : (⟨tuning, true⟩ : Pass α).rewrite commands with
    | error => rw [refused] at reports; cases reports; exact .inl ⟨failure, rfl, rfl⟩
    | ok => rw [refused] at reports; cases reports
  | ok plain =>
    obtain ⟨blocks, marked, written', bracketed⟩ := exists_bracketed written
    exact .inr ⟨blocks, plain, marked, written', rfl, bracketed⟩

/-- The loop of a shuttle gets the one pair of markers. -/
theorem bracketed_of_shuttle :
    ∃ blocks plain marked, (⟨Lane.tuning 1, true⟩ : Pass Exact).rewrite
        [Lane.home, Lane.draw 3 3, Lane.draw 0 3, Lane.lift 1] = .ok marked ∧
      Bracketed (Lane.tuning 1) [Lane.home, Lane.draw 3 3, Lane.draw 0 3, Lane.lift 1] blocks plain marked ∧
        marked.commands.filter Command.isMarker = [.comment Weave.startMarker, .comment Weave.endMarker] := by
  obtain ⟨_, _, lowest, cut, rewritten, accepted⟩ :=
    Lane.rewrite_shuttle (a := 3) (z := 1) (by norm_num) three_pos three_pos zero_le_one false
  obtain ⟨_, _, refused⟩ | ⟨blocks, plain, marked, written', written, bracketed⟩ :=
    bracketed_of_rewrite (Lane.tuning 1) [Lane.home, Lane.draw 3 3, Lane.draw 0 3, Lane.lift 1]
  · cases refused.symm.trans accepted
  · refine ⟨blocks, plain, marked, written', bracketed, ?_⟩
    obtain ⟨_, _, floor, lowest', _, cut', rfl⟩ := rewrite_eq_ok_iff.mp written
    cases lowest.symm.trans lowest'
    cases cut.symm.trans cut'
    have clear : ∀ c ∈ [Lane.home, Lane.draw 3 3, Lane.draw 0 3, Lane.lift 1], c.isMarker = false := by
      simp only [List.forall_mem_cons]
      exact ⟨rfl, rfl, rfl, rfl, List.forall_mem_nil _⟩
    exact bracketed.paired clear

end Pass

end Seam
