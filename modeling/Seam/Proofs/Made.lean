import Seam.Proofs.Eligible
import Seam.Proofs.Legible

/-!
Where the lines come from that are written. Each is a line of the program or is made for
a tapered loop: a move, a total that is declared, or a marker (`Pass.mem_or_made`). Lines
that are made are legible, so what is written for a program that was read is
(`Pass.legible_of_rewrite`).
-/
namespace Seam

/-- The line is made for a tapered loop. -/
inductive Weave.Made {α : Type} [Scalar α] : Command α → Prop
  | move (m : Machine α) (point : Point α) (extrusion : α) (feedRate : Option α) (withHeight : Bool) :
      Made (Weave.moveTo m point extrusion feedRate withHeight)
  | total (value : α) : Made (.ofWords .setPosition ⟨[('E', value)]⟩)
  | start : Made (.comment Weave.startMarker)
  | finish : Made (.comment Weave.endMarker)

variable {α : Type} [Scalar α] {tuning : Tuning α} {floor : α} {markers : Bool} {run : Run α}
  {segments : List (Segment α)} {commands : List (Command α)} {c : Command α}

private theorem Cut.other_mem_of_resume {length travelled : α} (mem : .other c ∈ (resume length travelled segments).taper) :
    .other c ∈ segments := by
  induction segments generalizing travelled with
  | nil => cases mem
  | cons s rest ih =>
    cases s with
    | other d =>
      rcases List.mem_cons.mp mem with same | later
      · exact List.mem_cons.mpr (.inl same)
      · exact List.mem_cons_of_mem _ (ih later)
    | move m =>
      rw [resume] at mem
      split at mem
      · cases List.mem_singleton.mp mem
      · exact List.mem_cons_of_mem _ (ih ((List.mem_cons.mp mem).resolve_left (by rintro ⟨⟩)))

namespace Weave

theorem mem_of_other_step (path : Segment.path? run.start run.commands = .ok (some segments))
    (mem : .other c ∈ steps tuning segments) : c ∈ run.commands := by
  obtain ⟨_, traced⟩ := Segment.traced_of_path path
  have listed : .other c ∈ taperSection tuning segments := segment_mem_taperSection mem
  exact traced.mem_of_other (Cut.other_mem_of_resume (Segment.other_mem_resample_iff.mp listed))

/-- Each line of a taper is the line of one of its steps. -/
private theorem exists_step_of_emit {line? : Machine α → Step α → Except (Fault α) (Option (Command α))} {m last : Machine α}
    {steps : List (Step α)} (emitted : emit line? m steps = .ok (commands, last)) (mem : c ∈ commands) :
    ∃ here, ∃ step ∈ steps, line? here step = .ok (some c) := by
  induction steps generalizing m commands with
  | nil => cases emitted; cases mem
  | cons step steps ih =>
    obtain ⟨_, later⟩ | ⟨d, next, rest, line, _, later, rfl⟩ := emit_cons_eq_ok_iff.mp emitted
    · obtain ⟨here, step', listed, line⟩ := ih later mem
      exact ⟨here, step', List.mem_cons_of_mem _ listed, line⟩
    · rcases List.mem_cons.mp mem with rfl | behind
      · exact ⟨m, step, List.mem_cons_self, line⟩
      · obtain ⟨here, step', listed, line⟩ := ih later behind
        exact ⟨here, step', List.mem_cons_of_mem _ listed, line⟩

private theorem made_of_declareTotal {m : Machine α} {total : α} (mem : c ∈ declareTotal m total) :
    Made c ∧ c.code? ≠ none := by
  unfold declareTotal at mem
  split at mem
  · cases List.mem_singleton.mp mem
    exact ⟨.total total, by simp [Command.ofWords, Command.code?]⟩
  · cases mem

/-- Between the markers of a tapered loop stand lines of the loop and instructions made for it. -/
theorem exists_inner (path : Segment.path? run.start run.commands = .ok (some segments))
    (woven : weave tuning floor markers run segments = .ok (.tapered commands)) :
    ∃ inner, commands = bracket markers inner ∧ ∀ c ∈ inner, c ∈ run.commands ∨ Made c ∧ c.code? ≠ none := by
  obtain ⟨starting, risen, boundary, joining, joined, ending, fallen, _, rises, _, joins, _, falls, rfl⟩ :=
    weave_eq_tapered_iff.mp woven
  have moved (m : Machine α) (point : Point α) (extrusion : α) (feedRate : Option α) (withHeight : Bool) :
      Made (moveTo m point extrusion feedRate withHeight) ∧ (moveTo m point extrusion feedRate withHeight).code? ≠ none :=
    ⟨.move .., by simp [moveTo, Command.ofWords, Command.code?]⟩
  refine ⟨_, rfl, ?_⟩
  simp only [List.forall_mem_append]
  refine ⟨⟨⟨⟨fun c mem => ?_, fun c mem => ?_⟩, fun c mem => ?_⟩, fun c mem => ?_⟩, fun c mem => ?_⟩
  · obtain ⟨here, step, listed, line⟩ := exists_step_of_emit rises mem
    cases line
    cases step with
    | other c => exact .inl (mem_of_other_step path listed)
    | still => exact .inr (moved ..)
    | ramped => exact .inr (moved ..)
  · rw [joint_eq_ok_iff.mp joins] at mem
    rcases List.mem_append.mp mem with declaration | tail
    · exact .inr (made_of_declareTotal declaration)
    · obtain ⟨move, _, rfl⟩ := List.mem_map.mp tail
      exact .inr (moved ..)
  · exact .inl (List.mem_of_mem_drop mem)
  · obtain ⟨here, step, listed, line⟩ := exists_step_of_emit falls mem
    cases step with
    | other c => cases line; exact .inl (mem_of_other_step path listed)
    | still => cases line
    | ramped =>
      rw [falling] at line
      obtain ⟨_, _, same⟩ := Except.map_eq_ok_iff.mp line
      cases same
      exact .inr (moved ..)
  · exact .inr (made_of_declareTotal mem)

/-- The lines of a tapered loop are lines of the loop or made for it. -/
theorem mem_or_made (path : Segment.path? run.start run.commands = .ok (some segments))
    (woven : weave tuning floor markers run segments = .ok (.tapered commands)) :
    ∀ c ∈ commands, c ∈ run.commands ∨ Made c := by
  obtain ⟨inner, rfl, lines⟩ := exists_inner path woven
  have written (c : Command α) (mem : c ∈ inner) : c ∈ run.commands ∨ Made c := (lines c mem).imp_right And.left
  cases markers with
  | false => exact written
  | true =>
    refine List.forall_mem_cons.mpr ⟨.inr .start, List.forall_mem_append.mpr ⟨written, fun c mem => ?_⟩⟩
    exact List.mem_singleton.mp mem ▸ .inr .finish

private theorem lettered_moveTo {m : Machine α} {point : Point α} {extrusion : α} {feedRate : Option α} {withHeight : Bool} :
    ∀ w ∈ (moveTo m point extrusion feedRate withHeight).words?, w.Lettered := by
  intro w given
  rw [words?_moveTo] at given
  cases given
  cases feedRate with
  | none => cases withHeight <;> exact ⟨by simp, by simp⟩
  | some feed =>
    by_cases same : (m.feedRate == some feed) = true <;> cases withHeight <;> exact ⟨by simp [same], by simp [same]⟩

/-- A made line could have been read. -/
theorem Made.legible (made : Made c) : c.Legible := by
  cases made with
  | move => exact ⟨lettered_moveTo _ rfl, fun text none => by cases none⟩
  | total value => exact ⟨⟨by simp, by simp⟩, fun text none => by cases none⟩
  | start => show '\n' ∉ startMarker.toList; decide +kernel
  | finish => show '\n' ∉ endMarker.toList; decide +kernel

end Weave

theorem Block.mem_or_made {p : Pass α} {m : Machine α} {line : ℕ} {b : Block α} {rest : List (Command α)}
    (slice : Slice p floor line m b rest) : ∀ c ∈ b.emitted, c ∈ b.source ∨ Weave.Made c := by
  cases replaced : b.isReplaced with
  | false =>
    rw [Block.emitted_of_isUntouched (Block.isUntouched_of_not_isReplaced replaced)]
    exact fun c => .inl
  | true =>
    obtain ⟨run, segments, rfl, source, _, path, woven⟩ := slice.tapered replaced
    rw [← source] at path ⊢
    exact Weave.mem_or_made path woven

namespace Pass

variable {p : Pass α} {rewritten : Rewritten α}

/-- What is written for a program are lines of it and lines that were made. -/
theorem mem_or_made (written : p.rewrite commands = .ok rewritten) :
    ∀ c ∈ rewritten.commands, c ∈ commands ∨ Weave.Made c := by
  obtain ⟨_, _, floor, _, blocks, cut, rfl⟩ := rewrite_eq_ok_iff.mp written
  obtain ⟨last, walk⟩ := blocks_eq_ok_iff.mp cut
  intro c mem
  obtain ⟨b, listed, emitted⟩ := List.mem_flatMap.mp mem
  obtain ⟨front, back, split⟩ := List.append_of_mem listed
  obtain ⟨_, _, slice⟩ := walk.slice split
  refine (Block.mem_or_made slice c emitted).imp_left fun source => ?_
  rw [← walk.source]
  exact List.mem_flatMap.mpr ⟨b, listed, source⟩

theorem legible_of_rewrite (written : p.rewrite commands = .ok rewritten) (legible : ∀ c ∈ commands, c.Legible) :
    ∀ c ∈ rewritten.commands, c.Legible :=
  fun c mem => (mem_or_made written c mem).elim (legible c) Weave.Made.legible

end Pass

end Seam
