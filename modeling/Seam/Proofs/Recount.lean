import Seam.Proofs.Conservation

/-!
When a tapered loop hands the count of filament on as the loop did. The ending
taper repeats the lines of the section that set a mode of extrusion, and a total is
only declared while extrusion is absolute, so a loop that switches the mode may
leave the program in another mode, or with a count that is off by what the ending
taper pushes. It does neither, and pushes the same filament in its rest, exactly if
it recounts (`Weave.Recounts`, `Woven.recounts_iff`).
-/
namespace Seam

namespace Weave

variable (tuning : Tuning Exact) (run : Run Exact) (segments : List (Segment Exact))

/-- The mode of extrusion in which the rest of the loop is met. -/
noncomputable def joinMode : Mode := (Pose.mode? (taperSection tuning segments)).getD run.start.extrusionMode

/-- How the rest of the loop settles a count of filament that is ahead. -/
noncomputable def settlement : Settlement := Settlement.ofLines (joinMode tuning run segments) (remainder tuning segments run)

/-- The tapered loop leaves the mode and the count of extrusion as the loop does. -/
structure Recounts : Prop where
  /-- The mode that the section sets is the one in which the loop ends. -/
  mode : (Pose.mode? (taperSection tuning segments)).getD run.finish.extrusionMode = run.finish.extrusionMode
  /-- The ending taper pushes nothing that counts, or a total is declared behind it
      and none was reached without that before the rest of the loop, or no total is met. -/
  count : |shortfall (steps tuning segments)| < slack ∨
    run.finish.extrusionMode = .absolute ∧
        (joinMode tuning run segments = .absolute ∨ settlement tuning run segments ≠ .reached) ∨
      run.finish.extrusionMode = .relative ∧ joinMode tuning run segments = .relative ∧
        settlement tuning run segments = .pending

end Weave

namespace Woven

variable {tuning : Tuning Exact} {floor : Exact} {run : Run Exact} {segments : List (Segment Exact)}

theorem extrusionMode_boundary (w : Woven tuning floor run segments) :
    w.boundary.extrusionMode = Weave.joinMode tuning run segments := by
  have along := congrArg Pose.extrusionMode w.rises.pose
  rw [Weave.trace_rising, Pose.extrusionMode_along] at along
  exact w.extrusionMode_risen.symm.trans along

theorem settlement_eq (w : Woven tuning floor run segments) : w.settlement = Weave.settlement tuning run segments := by
  rw [settlement, extrusionMode_boundary, Weave.settlement]

/-- Where the rest of the loop settles the lead, the ending taper pushes in excess. -/
theorem surplus_eq (w : Woven tuning floor run segments) :
    w.surplus = if w.settlement = .pending then w.headway + w.shortfall else w.shortfall := by
  rw [surplus]
  cases w.settlement <;> simp [Lead.settle, lead]

theorem headway_of_relative (w : Woven tuning floor run segments) (relative : w.boundary.extrusionMode = .relative) :
    w.headway = -w.shortfall :=
  if_neg fun renamed => Mode.noConfusion (relative.symm.trans renamed.1)

theorem headway_of_small (w : Woven tuning floor run segments) (small : |w.shortfall| < Weave.slack) :
    w.headway = -w.shortfall :=
  if_neg fun renamed => renamed.2 small

theorem headway_of_large (w : Woven tuning floor run segments) (absolute : w.boundary.extrusionMode = .absolute)
    (large : ¬ |w.shortfall| < Weave.slack) : w.headway = 0 :=
  if_pos ⟨absolute, large⟩

private theorem surplus_lt_iff (w : Woven tuning floor run segments) :
    |w.surplus| < Weave.slack ↔
      |w.shortfall| < Weave.slack ∨ w.boundary.extrusionMode = .relative ∧ w.settlement = .pending := by
  rw [surplus_eq]
  by_cases pending : w.settlement = .pending
  case neg => simp only [pending, if_false, and_false, or_false]
  rw [if_pos pending]
  by_cases small : |w.shortfall| < Weave.slack
  · rw [w.headway_of_small small, neg_add_cancel, abs_zero]
    exact iff_of_true Weave.slack_pos (.inl small)
  · cases mode : w.boundary.extrusionMode with
    | relative =>
      rw [w.headway_of_relative mode, neg_add_cancel, abs_zero]
      exact iff_of_true Weave.slack_pos (.inr ⟨rfl, pending⟩)
    | absolute =>
      rw [w.headway_of_large mode small, zero_add]
      exact iff_of_false small (not_or.mpr ⟨small, fun both => Mode.noConfusion both.1⟩)

theorem extrusionMode_last (w : Woven tuning floor run segments) :
    w.last.extrusionMode = (Pose.mode? (Weave.taperSection tuning segments)).getD run.finish.extrusionMode :=
  (Weave.declared_frame ..).2.2.2.1.trans w.extrusionMode_fallen

theorem near_last_iff (w : Woven tuning floor run segments) (counted : run.Counted) :
    Exact.Near w.last.extrusion run.finish.extrusion ↔ |w.excess| < Weave.slack := by
  obtain ⟨e, count⟩ := (w.counted_source counted).1.1
  have logical : w.last.extrusion = run.finish.extrusion + .real w.excess :=
    congrArg Gauge.logical (w.gauge_last counted)
  rw [logical, count, Exact.real_add, Exact.near_real_iff, add_sub_cancel_left]

private theorem excess_lt_iff (w : Woven tuning floor run segments) :
    |w.excess| < Weave.slack ↔ w.fallen.extrusionMode = .absolute ∨ |w.surplus| < Weave.slack := by
  constructor
  · intro small
    by_cases renamed : w.fallen.extrusionMode = .absolute ∧ ¬ |w.surplus| < Weave.slack
    · exact .inl renamed.1
    · rw [excess, if_neg renamed] at small
      exact .inr small
  · rintro (absolute | small)
    · exact w.excess_lt absolute
    · rw [excess, if_neg fun renamed => renamed.2 small]
      exact small

/-- A tapered loop hands mode and count on, and pushes in its rest what the loop pushed there, exactly if it recounts. -/
theorem recounts_iff (w : Woven tuning floor run segments) (counted : run.Counted) :
    w.last.extrusionMode = run.finish.extrusionMode ∧ Exact.Near w.last.extrusion run.finish.extrusion ∧
        List.Forall₂ (fun t u => Exact.Near u.pushed t.pushed) w.source w.rest ↔
      Weave.Recounts tuning run segments := by
  rw [w.extrusionMode_last, w.near_last_iff counted, w.excess_lt_iff, w.surplus_lt_iff, w.evenly_iff counted,
    w.extrusionMode_fallen, w.settlement_eq, w.extrusionMode_boundary]
  have absolute (met : Weave.joinMode tuning run segments = .absolute) : |w.headway| < Weave.slack :=
    w.headway_lt (w.extrusionMode_boundary.trans met)
  have relative (met : Weave.joinMode tuning run segments = .relative) : |w.headway| = |w.shortfall| := by
    rw [w.headway_of_relative (w.extrusionMode_boundary.trans met), abs_neg]
  constructor
  · rintro ⟨mode, count, rest⟩
    refine ⟨mode, ?_⟩
    rw [mode] at count
    by_cases small : |w.shortfall| < Weave.slack
    · exact .inl small
    · right
      rcases count with finish | small' | ⟨met, pending⟩
      · refine .inl ⟨finish, ?_⟩
        cases met : Weave.joinMode tuning run segments with
        | absolute => exact .inl rfl
        | relative => exact .inr fun reached => small (relative met ▸ rest reached)
      · exact absurd small' small
      · cases finish : run.finish.extrusionMode with
        | absolute => exact .inl ⟨rfl, .inr (by rw [pending]; exact Settlement.noConfusion)⟩
        | relative => exact .inr ⟨rfl, met, pending⟩
  · rintro ⟨mode, count⟩
    rw [mode]
    refine ⟨rfl, ?_⟩
    rcases count with small | ⟨finish, met | unreached⟩ | ⟨_, met, pending⟩
    · refine ⟨.inr (.inl small), fun _ => ?_⟩
      cases met : Weave.joinMode tuning run segments with
      | absolute => exact absolute met
      | relative => exact relative met ▸ small
    · exact ⟨.inl finish, fun _ => absolute met⟩
    · exact ⟨.inl finish, fun reached => absurd reached unreached⟩
    · exact ⟨.inr (.inr ⟨met, pending⟩), fun reached => Settlement.noConfusion (pending.symm.trans reached)⟩

end Woven

/-- A tapered loop hands the mode and the count of extrusion on, and pushes in its
    rest what the loop pushes there, exactly if it recounts. -/
structure Recounted (tuning : Tuning Exact) (floor : Exact) (run : Run Exact) (segments : List (Segment Exact))
    (commands : List (Command Exact)) (front rest back source : List (Transition Exact)) (last : Machine Exact) : Prop
    extends Pieces tuning floor run segments commands front rest back source last where
  exactly : last.extrusionMode = run.finish.extrusionMode ∧ Exact.Near last.extrusion run.finish.extrusion ∧
      List.Forall₂ (fun t u => Exact.Near u.pushed t.pushed) source rest ↔
    Weave.Recounts tuning run segments

end Seam
