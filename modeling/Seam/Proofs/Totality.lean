import Seam.Program
import Seam.Proofs.Admitted
import Seam.Proofs.Known

/-!
When a text is rewritten. Once its lines are read, the tuning is usable and no line is
objected to, nothing that comes later fails: the floor is found, and wherever the head
is asked for it is known, in the loops (`Segment.exists_trace`) as in their tapered
forms (`Weave.exists_weave`), so the pass gets through (`Pass.exists_walk`). Otherwise
the first of these failures in that order is the answer (`Pass.rewriteText_total`).
-/
namespace Seam

section
variable {α : Type} [Scalar α] {m last : Machine α} {cs : List (Command α)}

/-- A path asks for nothing but the machine behind each line. -/
theorem Segment.exists_trace (height : α) (replayed : m.replay cs = .ok last) :
    ∃ path?, trace height m cs = .ok path? := by
  induction cs generalizing m with
  | nil => exact ⟨_, rfl⟩
  | cons c cs ih =>
    obtain ⟨next, stepped, rest⟩ := Machine.replay_cons_eq_ok_iff.mp replayed
    obtain ⟨path?, traced⟩ := ih rest
    rw [trace, stepped]
    cases drawn : ofStep? height m next c with
    | none => exact ⟨none, by simp [bind, Except.bind, pure, Except.pure, drawn]⟩
    | some s => exact ⟨path?.map (s :: ·), by simp [bind, Except.bind, pure, Except.pure, drawn, traced]⟩

private theorem Segment.exists_path (run : Run α) : ∃ path, path? run.start run.commands = .ok path := by
  unfold path?
  split
  · exact exists_trace _ run.replays
  · exact ⟨none, rfl⟩

private theorem Machine.exists_extruding (trusted : ∀ c ∈ cs, c.isUntrusted = false) :
    ∃ taken last, m.extruding cs = .ok (taken, last) := by
  induction cs generalizing m with
  | nil => exact ⟨[], m, rfl⟩
  | cons c cs ih =>
    obtain ⟨here, others⟩ := List.forall_mem_cons.mp trusted
    obtain ⟨next, stepped⟩ := (after_isOk_iff (m := m)).mpr here
    obtain ⟨taken, last, continued⟩ := ih (m := next) others
    unfold extruding
    simp only [stepped, continued]
    split
    · exact ⟨c :: taken, last, rfl⟩
    · exact ⟨[], m, rfl⟩

theorem Run.exists_extract (trusted : ∀ c ∈ cs, c.isUntrusted = false) : ∃ r, Run.extract m cs = .ok r := by
  obtain ⟨taken, finish, extruding⟩ := Machine.exists_extruding (m := m) trusted
  exact ⟨⟨m, taken, finish, Machine.replay_of_extruding extruding⟩, extract_eq_ok_iff.mpr ⟨rfl, extruding⟩⟩

private theorem Machine.exists_wouldExtrude {c : Command α} (trusted : c.isUntrusted = false) :
    ∃ extrudes, m.wouldExtrude c = .ok extrudes := by
  obtain ⟨next, stepped⟩ := (after_isOk_iff (m := m)).mpr trusted
  unfold wouldExtrude
  split
  · exact ⟨next.extruded, by rw [stepped]; rfl⟩
  · exact ⟨false, rfl⟩

end

namespace Weave

variable {tuning : Tuning Exact} {floor : Exact} {markers : Bool} {run : Run Exact} {segments : List (Segment Exact)}
  {m : Machine Exact} {steps : List (Step Exact)}

/-- A taper gets through if every line of it is sure that is met where the head is known. -/
private theorem exists_emit (line? : Machine Exact → Step Exact → Except (Fault Exact) (Option (Command Exact)))
    (known : m.physicalKnown = true)
    (sure : ∀ step ∈ steps, ∀ m : Machine Exact, m.physicalKnown = true →
      ∃ line, line? m step = .ok line ∧ ∀ c, line = some c → c.Sure) :
    ∃ commands last, emit line? m steps = .ok (commands, last) ∧ last.physicalKnown = true := by
  induction steps generalizing m with
  | nil => exact ⟨[], m, rfl, known⟩
  | cons step steps ih =>
    obtain ⟨here, others⟩ := List.forall_mem_cons.mp sure
    obtain ⟨line, said, line_sure⟩ := here m known
    cases line with
    | none =>
      obtain ⟨commands, last, emitted, last_known⟩ := ih known others
      exact ⟨commands, last, emit_cons_eq_ok_iff.mpr (.inl ⟨said, emitted⟩), last_known⟩
    | some c =>
      obtain ⟨next, stepped, next_known⟩ := Machine.exists_after_of_sure known (line_sure c rfl)
      obtain ⟨commands, last, emitted, last_known⟩ := ih next_known others
      exact ⟨c :: commands, last, emit_cons_eq_ok_iff.mpr (.inr ⟨c, next, commands, said, stepped, emitted, rfl⟩),
        last_known⟩

/-- The lines on the section are lines of the loop, and those are sure. -/
theorem sure_of_other (usable : tuning.check = .ok ())
    (path : Segment.path? run.start run.commands = .ok (some segments)) {c : Command Exact}
    (mem : .other c ∈ Weave.steps tuning segments) : c.Sure := by
  obtain ⟨known, traced⟩ := Segment.traced_of_path path
  refine traced.sure c (traced.mem_of_other (mem_of_other_taperSection usable (traced.placed known) ?_))
  exact segment_mem_taperSection mem

theorem placed_of_step (usable : tuning.check = .ok ())
    (path : Segment.path? run.start run.commands = .ok (some segments)) {step : Step Exact} {move : Move Exact}
    (mem : step ∈ Weave.steps tuning segments) (moves : step.segment = .move move) : move.Placed := by
  obtain ⟨known, traced⟩ := Segment.traced_of_path path
  refine (refines_taperSection usable (traced.placed known)).placed move ?_
  rw [← moves]
  exact segment_mem_taperSection mem

theorem isReal_risingHeight (usable : tuning.check = .ok ()) (bounded : floor.IsReal) {t : Exact} (real : t.IsReal)
    (z : ℝ) : (risingHeight tuning.layerHeight floor t (.real z)).IsReal := by
  obtain ⟨l, _, layer⟩ := Tuning.layerHeight_of_check usable
  obtain ⟨f, rfl⟩ := bounded
  obtain ⟨h, rfl⟩ := real
  exact ⟨max (z - (1 - h) * l) f, by rw [layer, risingHeight_real]⟩

theorem sure_rising (usable : tuning.check = .ok ()) (bounded : floor.IsReal)
    (path : Segment.path? run.start run.commands = .ok (some segments)) (known : m.physicalKnown = true)
    {step : Step Exact} (mem : step ∈ Weave.steps tuning segments) : (rising tuning.layerHeight floor m step).Sure := by
  have fixed := Machine.fixed_of_physicalKnown known
  cases step with
  | other c => exact sure_of_other usable path mem
  | still move =>
    obtain ⟨_, q, _, stop⟩ := placed_of_step usable path mem rfl
    rw [rising, stop]
    exact sure_moveTo fixed fun _ => ⟨q.z, rfl⟩
  | ramped move t =>
    obtain ⟨_, q, _, stop⟩ := placed_of_step usable path mem rfl
    obtain ⟨known, traced⟩ := Segment.traced_of_path path
    obtain ⟨_, h, _, _, height⟩ := proper_steps usable (traced.placed known) _ mem
    rw [rising, stop]
    exact sure_moveTo fixed fun _ => isReal_risingHeight usable bounded ⟨h, height⟩ q.z

theorem sure_falling (usable : tuning.check = .ok ())
    (path : Segment.path? run.start run.commands = .ok (some segments)) (known : m.physicalKnown = true)
    {step : Step Exact} (mem : step ∈ Weave.steps tuning segments) :
    ∃ line, falling m step = .ok line ∧ ∀ c, line = some c → c.Sure := by
  cases step with
  | other c => exact ⟨some c, rfl, fun d same => by cases same; exact sure_of_other usable path mem⟩
  | still => exact ⟨none, rfl, fun d same => by cases same⟩
  | ramped move t =>
    obtain ⟨_, q, _, stop⟩ := placed_of_step usable path mem rfl
    have here := (m.physicalPosition_eq_ok_iff m.physical).mpr ⟨known, rfl⟩
    refine ⟨_, by rw [falling, here]; rfl, fun d same => ?_⟩
    cases same
    rw [stop]
    refine sure_moveTo (Machine.fixed_of_physicalKnown known) fun withHeight => ?_
    cases withHeight

/-- The joint behind the starting taper leads to the end of the cut move. -/
theorem exists_joint (usable : tuning.check = .ok ()) (bounded : floor.IsReal)
    (path : Segment.path? run.start run.commands = .ok (some segments)) (known : m.physicalKnown = true)
    (total : Exact) : ∃ joining, joint floor total (cut tuning segments).tail m = .ok joining ∧ ∀ c ∈ joining, c.Sure := by
  refine ⟨_, joint_eq_ok_iff.mpr rfl, fun c mem => ?_⟩
  rcases List.mem_append.mp mem with declaration | tail
  · exact sure_declareTotal _ c declaration
  · obtain ⟨move, left, rfl⟩ := List.mem_map.mp tail
    obtain ⟨start_known, traced⟩ := Segment.traced_of_path path
    obtain ⟨_, q, _, stop⟩ := (refines_cut usable (traced.placed start_known)).placed move
      (List.mem_append_right _ (List.mem_map_of_mem left))
    obtain ⟨f, rfl⟩ := bounded
    have fixed : (declared m (resumption total (cut tuning segments).tail)).Fixed := by
      rw [Machine.Fixed, (declared_frame m _).2.1]
      exact Machine.fixed_of_physicalKnown known
    rw [tailLine, stop]
    exact sure_moveTo fixed fun _ => ⟨max q.z f, Exact.max_real ..⟩

/-- A loop that is a path is tapered or abandoned. -/
theorem exists_weave (markers : Bool) (usable : tuning.check = .ok ()) (bounded : floor.IsReal)
    (path : Segment.path? run.start run.commands = .ok (some segments)) :
    ∃ outcome, weave tuning floor markers run segments = .ok outcome := by
  obtain ⟨known, traced⟩ := Segment.traced_of_path path
  have front : ∀ c ∈ run.commands.take (cut tuning segments).remainder, c.Sure :=
    fun c mem => traced.sure c (List.mem_of_mem_take mem)
  have behind : ∀ c ∈ remainder tuning segments run, c.Sure := fun c mem => traced.sure c (List.mem_of_mem_drop mem)
  have raised : ∀ step ∈ Weave.steps tuning segments, ∀ m : Machine Exact, m.physicalKnown = true →
      ∃ line, (.ok (some (rising tuning.layerHeight floor m step)) : Except (Fault Exact) _) = .ok line ∧
        ∀ c, line = some c → c.Sure := by
    intro step mem m here
    refine ⟨_, rfl, fun c same => ?_⟩
    cases same
    exact sure_rising usable bounded path here mem
  have lowered : ∀ step ∈ (Weave.steps tuning segments).takeWhile fun step => step.alteration?.isNone,
      ∀ m : Machine Exact, m.physicalKnown = true → ∃ line, falling m step = .ok line ∧ ∀ c, line = some c → c.Sure :=
    fun step mem m here => sure_falling usable path here ((List.takeWhile_prefix _).mem mem)
  obtain ⟨starting, risen, rises, risen_known⟩ := exists_emit _ known raised
  obtain ⟨boundary, replayed, _⟩ := Machine.exists_replay_of_sure known front
  obtain ⟨joining, joins, joining_sure⟩ := exists_joint usable bounded path risen_known boundary.extrusion
  obtain ⟨joined, followed, joined_known⟩ :=
    Machine.exists_replay_of_sure risen_known (List.forall_mem_append.mpr ⟨joining_sure, behind⟩)
  obtain ⟨ending, fallen, falls, _⟩ := exists_emit falling joined_known lowered
  rw [weave_eq]
  simp only [rises, replayed, joins, followed, falls, bind, Except.bind, pure, Except.pure]
  split
  · exact ⟨_, rfl⟩
  · exact ⟨_, rfl⟩

private theorem replay_of_tapered {α : Type} [Scalar α] {tuning : Tuning α} {floor : α} {run : Run α}
    {segments : List (Segment α)} {commands : List (Command α)}
    (woven : weave tuning floor markers run segments = .ok (.tapered commands)) :
    ∃ last, run.start.replay commands = .ok last := by
  obtain ⟨starting, risen, boundary, joining, joined, ending, fallen, _, rises, _, _, followed, falls, rfl⟩ :=
    weave_eq_tapered_iff.mp woven
  refine ⟨declared fallen run.finish.extrusion, ?_⟩
  rw [replay_bracket, List.append_assoc starting]
  refine Machine.replay_append_eq_ok_iff.mpr ⟨fallen, ?_, replay_declareTotal ..⟩
  refine Machine.replay_append_eq_ok_iff.mpr ⟨joined, ?_, replay_emit falls⟩
  exact Machine.replay_append_eq_ok_iff.mpr ⟨risen, replay_emit rises, followed⟩

end Weave

namespace Pass

variable {p : Pass Exact} {floor : Exact} {m : Machine Exact} {commands : List (Command Exact)}

theorem exists_judge (usable : p.tuning.check = .ok ()) (bounded : floor.IsReal) (run : Run Exact) :
    ∃ verdict, p.judge floor run = .ok verdict := by
  obtain ⟨path?, path⟩ := Segment.exists_path run
  unfold judge
  rw [path]
  split
  · exact ⟨.unclosed, rfl⟩
  · cases path? with
    | none => exact ⟨.rigid, rfl⟩
    | some segments =>
      obtain ⟨outcome, woven⟩ := Weave.exists_weave p.markers usable bounded path
      simp only [woven, bind, Except.bind, pure, Except.pure]
      split
      · exact ⟨.short, rfl⟩
      · cases outcome with
        | tapered commands => exact ⟨.tapered commands, rfl⟩
        | abandoned culprit => exact ⟨.abandoned culprit, rfl⟩

/-- The machine makes a block of every rest of a program, and can be followed through what is written for it. -/
private theorem exists_block (usable : p.tuning.check = .ok ()) (bounded : floor.IsReal) (line : ℕ) {c : Command Exact}
    {cs : List (Command Exact)} (trusted : ∀ d ∈ c :: cs, d.isUntrusted = false) :
    ∃ b next, p.block floor m line c cs = .ok b ∧ m.replay b.emitted = .ok next := by
  have here := trusted c List.mem_cons_self
  obtain ⟨extrudes, would⟩ := Machine.exists_wouldExtrude (m := m) here
  cases extrudes with
  | false =>
    obtain ⟨next, stepped⟩ := Machine.after_isOk_iff.mpr here
    exact ⟨.single c, next, block_of_silent would, Machine.replay_cons_eq_ok_iff.mpr ⟨next, stepped, rfl⟩⟩
  | true =>
    obtain ⟨run, extracted⟩ := Run.exists_extract (m := m) trusted
    obtain ⟨start, _⟩ := Run.extract_eq_ok_iff.mp extracted
    obtain ⟨verdict, judged⟩ := exists_judge usable bounded run
    have blocked : p.block floor m line c cs = .ok (.run line run.commands verdict) := by
      refine Except.bind_eq_ok_iff.mpr ⟨true, would, ?_⟩
      exact Except.bind_eq_ok_iff.mpr ⟨run, extracted, Except.bind_eq_ok_iff.mpr ⟨verdict, judged, rfl⟩⟩
    refine ⟨.run line run.commands verdict, ?_⟩
    by_cases replaced : (Block.run line run.commands verdict).isReplaced = true
    · cases verdict with
      | tapered commands =>
        obtain ⟨_, _, _, _, woven⟩ := judge_eq_tapered_iff.mp judged
        obtain ⟨next, replayed⟩ := Weave.replay_of_tapered woven
        exact ⟨next, blocked, start ▸ replayed⟩
      | _ => cases replaced
    · refine ⟨run.finish, blocked, ?_⟩
      rw [Block.emitted_of_isUntouched (Block.isUntouched_of_not_isReplaced (Bool.eq_false_iff.mpr replaced)), ← start]
      exact run.replays

/-- The pass gets through every program whose lines have outcomes. -/
theorem exists_walk (usable : p.tuning.check = .ok ()) (bounded : floor.IsReal) (line : ℕ)
    (trusted : ∀ c ∈ commands, c.isUntrusted = false) :
    ∃ blocks last, Walk p floor m line commands blocks last := by
  induction hn : commands.length using Nat.strongRecOn generalizing m line commands with
  | ind n ih =>
    cases commands with
    | nil => exact ⟨[], m, .nil m line⟩
    | cons c cs =>
      obtain ⟨b, next, blocked, replayed⟩ := exists_block (m := m) usable bounded line trusted
      obtain ⟨rest, split, slice⟩ := block_eq_ok_iff.mp blocked
      have some : 0 < b.source.length := List.length_pos_iff.mpr slice.source_ne_nil
      have shorter : rest.length < n := by
        rw [← hn, split, List.length_append]
        omega
      rw [split] at trusted ⊢
      obtain ⟨blocks, last, behind⟩ :=
        @ih _ shorter next rest (line + b.source.length) (List.forall_mem_append.mp trusted).2 rfl
      exact ⟨b :: blocks, last, .cons slice replayed behind⟩

/-- Once a program is admitted, nothing that comes later fails. -/
theorem exists_blocks (usable : p.tuning.check = .ok ()) (admitted : Admission.check commands = .ok ()) :
    ∃ f : ℝ, Floor.ofCommands commands = .ok (.real f) ∧ ∃ blocks, p.blocks (.real f) commands = .ok blocks := by
  have admitted := Admission.check_eq_ok_iff.mp admitted
  obtain ⟨f, lowest⟩ := Floor.exists_ofCommands admitted
  obtain ⟨blocks, last, walk⟩ := exists_walk (m := Machine.powerOn) usable ⟨f, rfl⟩ 1 fun c mem => (admitted c mem).trusted
  exact ⟨f, lowest, blocks, blocks_eq_ok_iff.mpr ⟨last, walk⟩⟩

/-- A program is rewritten if and only if the tuning is usable and the program is admitted. -/
theorem exists_rewrite_iff :
    (∃ rewritten, p.rewrite commands = .ok rewritten) ↔
      p.tuning.check = .ok () ∧ Admission.check commands = .ok () := by
  constructor
  · rintro ⟨rewritten, written⟩
    obtain ⟨usable, admitted, _⟩ := rewrite_eq_ok_iff.mp written
    exact ⟨usable, admitted⟩
  · rintro ⟨usable, admitted⟩
    obtain ⟨f, lowest, blocks, cut⟩ := exists_blocks usable admitted
    exact ⟨_, rewrite_eq_ok_iff.mpr ⟨usable, admitted, .real f, lowest, blocks, cut, rfl⟩⟩

end Pass

end Seam
