import Seam.Proofs.Ramp
import Seam.Proofs.Stroke

/-!
Tapers as drawings. Every step of a taper becomes a line or none: a line that
does not move the head is repeated as it stands, and a move is drawn as a stroke
or left out (`Drawn`). Both tapers are such drawings (`Weave.drawn_rising`,
`Weave.drawn_falling`), and all that a drawing does to the machine follows from
its strokes (`Drawn.framed`, `Drawn.pose`, `Drawn.strokes`).
-/
namespace Seam

/-- What becomes of a step in a drawing. -/
def Step.trace? {α : Type} (stroke? : Step α → Option (Stroke α)) (step : Step α) : Option (Segment α) :=
  match stroke? step, step with
  | some s, _ => some (.move s.move)
  | none, .other c => some (.other c)
  | none, _ => none

section
variable {α : Type} {stroke? : Step α → Option (Stroke α)}

theorem Step.trace?_stroke {step : Step α} {s : Stroke α} (drawn : stroke? step = some s) :
    step.trace? stroke? = some (.move s.move) := by simp [trace?, drawn]

theorem Step.trace?_other {c : Command α} (repeated : stroke? (.other c) = none) :
    Step.trace? stroke? (.other c) = some (.other c) := by simp [trace?, repeated]

theorem Step.trace?_still {move : Move α} (omitted : stroke? (.still move) = none) :
    Step.trace? stroke? (.still move) = none := by simp [trace?, omitted]

end

/-- The machine repeats the lines that do not move the head, draws the strokes of
    the other steps, and is the second machine behind the transitions. -/
inductive Drawn (stroke? : Step Exact → Option (Stroke Exact)) :
    Machine Exact → List (Step Exact) → List (Transition Exact) → Machine Exact → Prop
  | nil (m : Machine Exact) : Drawn stroke? m [] [] m
  | other {m next last : Machine Exact} {c : Command Exact} {steps : List (Step Exact)} {ts : List (Transition Exact)}
      (repeated : stroke? (.other c) = none) (idle : c.isIdle = true) (stepped : m.after c = .ok next)
      (rest : Drawn stroke? next steps ts last) : Drawn stroke? m (.other c :: steps) (⟨m, c, next⟩ :: ts) last
  | stroke {m next last : Machine Exact} {c : Command Exact} {step : Step Exact} {s : Stroke Exact}
      {steps : List (Step Exact)} {ts : List (Transition Exact)} (drawn : stroke? step = some s)
      (stepped : m.after c = .ok next) (draws : Transition.Draws ⟨m, c, next⟩ s)
      (rest : Drawn stroke? next steps ts last) : Drawn stroke? m (step :: steps) (⟨m, c, next⟩ :: ts) last
  | skip {m last : Machine Exact} {move : Move Exact} {steps : List (Step Exact)} {ts : List (Transition Exact)}
      (omitted : stroke? (.still move) = none) (rest : Drawn stroke? m steps ts last) :
      Drawn stroke? m (.still move :: steps) ts last

/-- The second machine means coordinates as the first one does, and its offsets are the same. -/
structure Machine.Framed {α : Type} (m last : Machine α) : Prop where
  positioning : last.positioning = m.positioning
  offset : last.offset = m.offset
  extrusionOffset : last.extrusionOffset = m.extrusionOffset

namespace Machine

variable {α : Type} {m mid next last : Machine α}

theorem Framed.trans (front : m.Framed mid) (back : mid.Framed last) : m.Framed last :=
  ⟨back.positioning.trans front.positioning, back.offset.trans front.offset,
    back.extrusionOffset.trans front.extrusionOffset⟩

variable [Scalar α] {c : Command α}

theorem framed_of_isIdle (idle : c.isIdle = true) (stepped : m.after c = .ok next) : m.Framed next := by
  rw [after_of_isIdle m idle, Except.ok.injEq] at stepped
  subst stepped
  exact ⟨rfl, rfl, rfl⟩

theorem framed_of_isLinear (linear : c.isLinear = true) (stepped : m.after c = .ok next) : m.Framed next := by
  obtain ⟨positioning, _, offset, extrusionOffset⟩ := after_of_isLinear linear stepped
  exact ⟨positioning, offset, extrusionOffset⟩

end Machine

theorem Command.isLinear_of_isIdle {α : Type} {c : Command α} (idle : c.isIdle = true) : c.isLinear = false := by
  rw [isIdle, isMotion, Bool.and_eq_true] at idle
  rw [isLinear]
  cases code : c.code? with
  | none => rfl
  | some code => simp_all [Code.isMotion]

namespace Drawn

variable {stroke? : Step Exact → Option (Stroke Exact)} {m last : Machine Exact} {steps : List (Step Exact)}
  {ts : List (Transition Exact)}

theorem passage (drawn : Drawn stroke? m steps ts last) : Passage m ts last := by
  induction drawn with
  | nil m => exact .nil m
  | other _ _ stepped _ ih => exact .cons stepped ih
  | stroke _ stepped _ _ ih => exact .cons stepped ih
  | skip _ _ ih => exact ih

theorem framed (drawn : Drawn stroke? m steps ts last) : m.Framed last := by
  induction drawn with
  | nil m => exact ⟨rfl, rfl, rfl⟩
  | other _ idle stepped _ ih => exact (Machine.framed_of_isIdle idle stepped).trans ih
  | stroke _ stepped draws _ ih => exact (Machine.framed_of_isLinear draws.isLinear stepped).trans ih
  | skip _ _ ih => exact ih

/-- The straight motions among the transitions are the strokes, in order. -/
theorem strokes (drawn : Drawn stroke? m steps ts last) :
    List.Forall₂ Transition.Draws (ts.filter Transition.isLinear) (steps.filterMap stroke?) := by
  induction drawn with
  | nil m => exact .nil
  | other repeated idle _ _ ih =>
    rw [List.filter_cons_of_neg (by simp [Transition.isLinear, Command.isLinear_of_isIdle idle]), List.filterMap_cons_none repeated]
    exact ih
  | stroke drawn _ draws _ ih =>
    rw [List.filter_cons_of_pos draws.isLinear, List.filterMap_cons_some drawn]
    exact .cons draws ih
  | skip omitted _ ih =>
    rw [List.filterMap_cons_none omitted]
    exact ih

theorem pose (drawn : Drawn stroke? m steps ts last) :
    last.pose = m.pose.along (steps.filterMap (Step.trace? stroke?)) := by
  induction drawn with
  | nil m => rfl
  | @other m next _ c _ _ repeated idle stepped _ ih =>
    rw [Machine.after_of_isIdle m idle, Except.ok.injEq] at stepped
    subst stepped
    rw [List.filterMap_cons_some (Step.trace?_other repeated)]
    exact ih
  | @stroke m next _ c _ s _ _ drawn stepped draws _ ih =>
    have feedRate : next.feedRate = s.move.feedRate.or m.feedRate := draws.feedRate
    have here : next.pose = m.pose.after (.move s.move) := by
      simp only [Machine.pose, Pose.after, draws.x, draws.y, feedRate,
        (Machine.after_of_isLinear draws.isLinear stepped).2.1]
    rw [List.filterMap_cons_some (Step.trace?_stroke drawn), ih, here]
    rfl
  | skip omitted _ ih =>
    rw [List.filterMap_cons_none (Step.trace?_still omitted)]
    exact ih

theorem extrusion (drawn : Drawn stroke? m steps ts last) (counted : m.extrusion.IsReal)
    (shares : ∀ s ∈ steps.filterMap stroke?, s.share.IsReal) :
    last.extrusion = .real (m.extrusion.toReal + ((steps.filterMap stroke?).map (·.share.toReal)).sum) := by
  induction drawn with
  | nil m => simpa using counted.eq
  | @other m next _ c _ _ repeated idle stepped _ ih =>
    rw [Machine.after_of_isIdle m idle, Except.ok.injEq] at stepped
    subst stepped
    rw [List.filterMap_cons_none repeated] at shares ⊢
    exact ih counted shares
  | @stroke m next _ c _ s _ _ drawn stepped draws _ ih =>
    rw [List.filterMap_cons_some drawn] at shares ⊢
    obtain ⟨share, real⟩ := shares s (List.mem_cons_self ..)
    obtain ⟨e, count⟩ := counted
    have pushed : next.extrusion = .real (e + share) := by
      rw [show next.extrusion = m.extrusion + s.share from draws.extrusion, count, real, Exact.real_add]
    rw [ih ⟨_, pushed⟩ fun s mem => shares s (List.mem_cons_of_mem _ mem)]
    simp only [pushed, count, real, Exact.toReal_real, List.map_cons, List.sum_cons, add_assoc]
  | skip omitted _ ih =>
    rw [List.filterMap_cons_none omitted] at shares ⊢
    exact ih counted shares

end Drawn

namespace Weave

theorem emit_cons_eq_ok_iff {α : Type} [Scalar α] {m last : Machine α} {step : Step α} {steps : List (Step α)}
    {line? : Machine α → Step α → Except (Fault α) (Option (Command α))} {commands : List (Command α)} :
    emit line? m (step :: steps) = .ok (commands, last) ↔
      line? m step = .ok none ∧ emit line? m steps = .ok (commands, last) ∨
        ∃ c next rest, line? m step = .ok (some c) ∧ m.after c = .ok next ∧
          emit line? next steps = .ok (rest, last) ∧ commands = c :: rest := by
  rw [emit]
  rcases line? m step with fault | _ | c
  · simp [bind, Except.bind]
  · simp [bind, Except.bind]
  · cases stepped : m.after c with
    | error fault => simp [bind, Except.bind, stepped]
    | ok next =>
      rcases emitted : emit line? next steps with fault | ⟨rest, last'⟩
      · simp [bind, Except.bind, stepped, emitted]
      · simp [bind, Except.bind, pure, Except.pure, stepped, emitted]
        grind

theorem replay_emit {α : Type} [Scalar α] {m last : Machine α} {steps : List (Step α)}
    {line? : Machine α → Step α → Except (Fault α) (Option (Command α))} {commands : List (Command α)}
    (emitted : emit line? m steps = .ok (commands, last)) : m.replay commands = .ok last := by
  induction steps generalizing m commands with
  | nil => cases emitted; rfl
  | cons step steps ih =>
    obtain ⟨_, later⟩ | ⟨c, next, rest, _, stepped, later, rfl⟩ := emit_cons_eq_ok_iff.mp emitted
    · exact ih later
    · exact Machine.replay_cons_eq_ok_iff.mpr ⟨next, stepped, ih later⟩

variable {m last : Machine Exact} {steps : List (Step Exact)} {commands : List (Command Exact)}

/-- The starting taper draws every move of the section. -/
theorem drawn_rising {layerHeight floor : Exact} (plain : Segment.Plain (steps.map Step.segment))
    (absolute : steps ≠ [] → m.positioning = .absolute) (fixed : m.Fixed)
    (emitted : emit (fun m step => .ok (some (rising layerHeight floor m step))) m steps = .ok (commands, last)) :
    ∃ ts, Drawn (Step.rise? layerHeight floor) m steps ts last ∧ ts.map (·.line) = commands := by
  induction steps generalizing m commands with
  | nil => cases emitted; exact ⟨[], .nil _, rfl⟩
  | cons step steps ih =>
    obtain ⟨none, _⟩ | ⟨c, next, rest, line, stepped, later, rfl⟩ := emit_cons_eq_ok_iff.mp emitted
    · cases none
    · cases line
      have here_absolute := absolute (List.cons_ne_nil _ _)
      have continued (framed : m.Framed next) :
          ∃ ts, Drawn (Step.rise? layerHeight floor) next steps ts last ∧ ts.map (·.line) = rest :=
        ih plain.of_cons (fun _ => framed.positioning.trans here_absolute)
          (by rw [Machine.Fixed, framed.offset]; exact fixed) later
      cases step with
      | other c =>
        have idle := plain c (List.mem_cons_self ..)
        obtain ⟨ts, drawn, lines⟩ := continued (Machine.framed_of_isIdle idle stepped)
        exact ⟨_, .other rfl idle stepped drawn, by rw [List.map_cons, lines]; rfl⟩
      | still move =>
        have draws := draws_moveTo here_absolute fixed stepped
        obtain ⟨ts, drawn, lines⟩ := continued (Machine.framed_of_isLinear draws.isLinear stepped)
        exact ⟨_, .stroke rfl stepped draws drawn, by rw [List.map_cons, lines]⟩
      | ramped move t =>
        have draws := draws_moveTo here_absolute fixed stepped
        obtain ⟨ts, drawn, lines⟩ := continued (Machine.framed_of_isLinear draws.isLinear stepped)
        exact ⟨_, .stroke rfl stepped draws drawn, by rw [List.map_cons, lines]⟩

/-- The ending taper draws every move of the section that does not stand still. -/
theorem drawn_falling (plain : Segment.Plain (steps.map Step.segment))
    (absolute : steps ≠ [] → m.positioning = .absolute) (emitted : emit falling m steps = .ok (commands, last)) :
    ∃ ts, Drawn Step.fall? m steps ts last ∧ ts.map (·.line) = commands := by
  induction steps generalizing m commands with
  | nil => cases emitted; exact ⟨[], .nil _, rfl⟩
  | cons step steps ih =>
    have here_absolute := absolute (List.cons_ne_nil _ _)
    obtain ⟨omitted, later⟩ | ⟨c, next, rest, line, stepped, later, rfl⟩ := emit_cons_eq_ok_iff.mp emitted
    · obtain ⟨ts, drawn, lines⟩ := ih plain.of_cons (fun _ => here_absolute) later
      cases step with
      | other c => cases omitted
      | still move => exact ⟨ts, .skip rfl drawn, lines⟩
      | ramped move t =>
        rw [falling] at omitted
        cases here : m.physicalPosition <;> rw [here] at omitted <;> cases omitted
    · have continued (framed : m.Framed next) : ∃ ts, Drawn Step.fall? next steps ts last ∧ ts.map (·.line) = rest :=
        ih plain.of_cons (fun _ => framed.positioning.trans here_absolute) later
      cases step with
      | other c =>
        cases line
        have idle := plain c (List.mem_cons_self ..)
        obtain ⟨ts, drawn, lines⟩ := continued (Machine.framed_of_isIdle idle stepped)
        exact ⟨_, .other rfl idle stepped drawn, by rw [List.map_cons, lines]⟩
      | still move => cases line
      | ramped move t =>
        rw [falling] at line
        cases here : m.physicalPosition with
        | error => rw [here] at line; cases line
        | ok p =>
          rw [here] at line
          cases line
          have fixed := Machine.fixed_of_physicalKnown ((m.physicalPosition_eq_ok_iff p).mp here).1
          have draws := draws_moveTo here_absolute fixed stepped
          obtain ⟨ts, drawn, lines⟩ := continued (Machine.framed_of_isLinear draws.isLinear stepped)
          exact ⟨_, .stroke rfl stepped draws drawn, by rw [List.map_cons, lines]⟩

end Weave

end Seam
