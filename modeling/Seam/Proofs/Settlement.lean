import Seam.Loop.Weave
import Seam.Proofs.Lead

/-!
Counts of filament that are apart. Of the lines that two machines meet, the first
one that reaches a total or declares one settles the lead of the logical count
(`Lead.through_filament`). A total that is reached pushes the lead away, so the
machines push the same filament at every line exactly if nothing is reached
before the lead is settled or the lead is too small to count
(`Machine.Ahead.evenly_iff`).
-/
namespace Seam

/-- The two numbers differ by less than totals of extrusion may. -/
def Exact.Near (a b : Exact) : Prop := Scalar.abs (a - b) < Weave.extrusionTolerance

/-- The difference of two totals that are the same, as a real. -/
noncomputable def Weave.slack : ℝ := 1e-9

theorem Weave.slack_pos : 0 < slack := by
  norm_num [slack]

theorem Weave.extrusionTolerance_eq : (extrusionTolerance : Exact) = .real slack := by
  rw [extrusionTolerance, Exact.ofPlaces_billionth, slack]

theorem Exact.near_real_iff (a b : ℝ) : Near (.real a) (.real b) ↔ |a - b| < Weave.slack := by
  rw [Near, real_sub, abs_real, Weave.extrusionTolerance_eq, real_lt]

/-- How the count of filament that is ahead comes to agree, if it does. -/
inductive Settlement where
  | pending
  | reached
  | declared
deriving Repr, DecidableEq

namespace Settlement

variable {α : Type} [Scalar α]

/-- What the effect on the filament settles, and otherwise what settles later. -/
def ofEffect (later : Settlement) : Effect α → Settlement
  | .reach _ => reached
  | .declare _ => declared
  | _ => later

/-- The settlement by the lines, the first of which finds extrusion in the given mode. -/
def ofLines (mode : Mode) : List (Command α) → Settlement
  | [] => pending
  | c :: cs => ofEffect (ofLines ((c.mode? .filament).getD mode) cs) (c.effect mode .filament)

end Settlement

/-- A line keeps the count of filament, reaches a total, adds an amount or declares a total. -/
theorem Command.effect_filament {α : Type} [Scalar α] (c : Command α) (mode : Mode) :
    c.effect mode .filament = .keep ∨
      (∃ v, mode = .absolute ∧ c.number? .filament = some v ∧ c.effect mode .filament = .reach v) ∨
      (mode = .relative ∧ c.effect mode .filament = .advance ((c.number? .filament).getD 0)) ∨
      ∃ v, c.number? .filament = some v ∧ c.effect mode .filament = .declare v := by
  have driven (number : Option α) : drive number mode = .keep ∨
      (∃ v, mode = .absolute ∧ number = some v ∧ drive number mode = .reach v) ∨
        (mode = .relative ∧ drive number mode = .advance (number.getD 0)) := by
    cases mode with
    | relative => exact .inr (.inr ⟨rfl, rfl⟩)
    | absolute =>
      cases number with
      | none => exact .inl rfl
      | some v => exact .inr (.inl ⟨v, rfl, rfl, rfl⟩)
  unfold effect
  rcases c.code? with _ | code
  · exact .inl rfl
  · cases code
    case rapidMove | linearMove | clockwiseArc | counterclockwiseArc =>
      rcases driven (c.number? .filament) with kept | reached | added
      · exact .inl kept
      · exact .inr (.inl reached)
      · exact .inr (.inr (.inl added))
    case setPosition =>
      cases c.number? .filament with
      | none => exact .inl rfl
      | some v => exact .inr (.inr (.inr ⟨v, rfl, rfl⟩))
    all_goals exact .inl rfl

theorem Settlement.ofLines_relative {α : Type} [Scalar α] {cs : List (Command α)}
    (steady : ∀ c ∈ cs, c.mode? .filament = none) : ofLines .relative cs ≠ reached := by
  induction cs with
  | nil => exact Settlement.noConfusion
  | cons c cs ih =>
    have rest := ih fun c mem => steady c (List.mem_cons_of_mem _ mem)
    rw [ofLines, steady c (List.mem_cons_self ..)]
    rcases c.effect_filament .relative with same | ⟨_, relative, _⟩ | ⟨_, same⟩ | ⟨_, _, same⟩
    · rw [same]; exact rest
    · cases relative
    · rw [same]; exact rest
    · rw [same]; exact Settlement.noConfusion

namespace Lead

noncomputable def settle (l : Lead) : Settlement → Lead
  | .pending => l
  | .reached => ⟨0, l.offset⟩
  | .declared => ⟨0, l.offset + l.logical⟩

private theorem through_of_settled (offset : ℝ) (mode : Mode) (cs : List (Command Exact)) :
    (Lead.mk 0 offset).through .filament mode cs = ⟨0, offset⟩ := by
  induction cs generalizing mode with
  | nil => rfl
  | cons c cs ih =>
    have kept : (Lead.mk 0 offset).after (c.effect mode .filament) = ⟨0, offset⟩ := by
      rcases c.effect_filament mode with same | ⟨v, _, _, same⟩ | ⟨_, same⟩ | ⟨v, _, same⟩ <;> rw [same] <;> simp [after]
    rw [through, kept, ih]

/-- The lead behind some lines is the one that their settlement leaves. -/
theorem through_filament (l : Lead) (mode : Mode) (cs : List (Command Exact)) :
    l.through .filament mode cs = l.settle (Settlement.ofLines mode cs) := by
  induction cs generalizing mode with
  | nil => rfl
  | cons c cs ih =>
    rw [through, Settlement.ofLines]
    rcases c.effect_filament mode with same | ⟨v, _, _, same⟩ | ⟨_, same⟩ | ⟨v, _, same⟩
    · rw [same]; exact ih _
    · rw [same]; exact through_of_settled ..
    · rw [same]; exact ih _
    · rw [same]; exact through_of_settled ..

end Lead

namespace Machine

variable {l : Lead} {here here' there there' : Machine Exact}

/-- What a line pushes for a machine that is ahead. -/
theorem Ahead.pushed {c : Command Exact} (ahead : Ahead .filament l here there) (stepped : here.after c = .ok here')
    (followed : there.after c = .ok there') :
    Transition.pushed ⟨there, c, there'⟩ = Transition.pushed ⟨here, c, here'⟩ +
      .real ((l.after (c.effect here.extrusionMode .filament)).physical - l.physical) := by
  have before : there.physicalExtrusion = here.physicalExtrusion + .real l.physical := by
    show (there.gauge .filament).physical = _
    rw [ahead.2, Gauge.physical_ahead]
    rfl
  have behind : there'.physicalExtrusion = here'.physicalExtrusion +
      .real (l.after (c.effect here.extrusionMode .filament)).physical := by
    show (there'.gauge .filament).physical = _
    rw [(ahead.after stepped followed).2, Gauge.physical_ahead]
    rfl
  rw [Transition.pushed, before, behind, Exact.shift_sub_shift]
  rfl

/-- Machines of which one is ahead push the same filament at every line exactly
    if no total is reached before the lead is settled, or the lead is too small to count. -/
theorem Ahead.evenly_iff {ts us : List (Transition Exact)} (ahead : Ahead .filament l here there)
    (front : Passage here ts here') (back : Passage there us there') (lines : us.map (·.line) = ts.map (·.line))
    (counted : ∀ t ∈ ts, t.pushed.IsReal) :
    List.Forall₂ (fun t u => Exact.Near u.pushed t.pushed) ts us ↔
      (Settlement.ofLines here.extrusionMode (ts.map (·.line)) = .reached → |l.logical| < Weave.slack) := by
  induction front generalizing there us l with
  | nil => rw [List.map_nil, List.map_eq_nil_iff] at lines; subst lines; simp [Settlement.ofLines]
  | @cons here next last c ts stepped rest ih =>
    cases back with
    | nil => cases lines
    | @cons _ next' _ c' us followed more =>
      obtain ⟨same, later⟩ := List.cons.inj lines
      cases same
      have settled : Ahead .filament (l.after (c.effect here.extrusionMode .filament)) next next' :=
        ahead.after stepped followed
      have mode : next.extrusionMode = (c.mode? .filament).getD here.extrusionMode := after_mode stepped .filament
      have tail := ih settled more later fun t mem => counted t (List.mem_cons_of_mem _ mem)
      have pushed := ahead.pushed stepped followed
      obtain ⟨p, amount⟩ := counted _ (List.mem_cons_self ..)
      have head : Exact.Near (Transition.pushed ⟨there, c, next'⟩) (Transition.pushed ⟨here, c, next⟩) ↔
          |(l.after (c.effect here.extrusionMode .filament)).physical - l.physical| < Weave.slack := by
        rw [pushed, amount, Exact.real_add, Exact.near_real_iff, add_sub_cancel_left]
      rw [List.forall₂_cons, head, tail, mode, List.map_cons, Settlement.ofLines]
      rcases c.effect_filament here.extrusionMode with same | ⟨v, _, _, same⟩ | ⟨_, same⟩ | ⟨v, _, same⟩
      · rw [same]; simp [Lead.after, Weave.slack_pos, Settlement.ofEffect]
      · rw [same]; simp [Lead.after, Lead.physical, Weave.slack_pos, Settlement.ofEffect]
      · rw [same]; simp [Lead.after, Weave.slack_pos, Settlement.ofEffect]
      · rw [same]; simp [Lead.after, Lead.physical, Weave.slack_pos, Settlement.ofEffect, add_comm]

end Machine

end Seam
