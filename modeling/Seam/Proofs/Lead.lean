import Seam.Proofs.Exact
import Seam.Proofs.Passage

/-!
Two machines that meet the same lines. Where the one is ahead of the other on a
dial, by a real in the logical count and another in the offset, it stays ahead,
and what becomes of the lead depends on the lines alone (`Machine.Ahead.replay`): a count
that is reached takes the logical lead away, a declaration turns it into a lead
of the offset, and homing ends both.
-/
namespace Seam

/-- How far one dial is ahead of another. -/
structure Lead where
  logical : ℝ
  offset : ℝ

namespace Lead

def zero : Lead := ⟨0, 0⟩

/-- How far the physical counts are apart. -/
noncomputable def physical (l : Lead) : ℝ := l.logical + l.offset

/-- The lead after a line. -/
noncomputable def after (l : Lead) : Effect Exact → Lead
  | .keep | .advance _ => l
  | .reach _ | .lose => { l with logical := 0 }
  | .home => zero
  | .declare _ => ⟨0, l.offset + l.logical⟩

private theorem zero_after (e : Effect Exact) : zero.after e = zero := by
  cases e <;> simp [after, zero]

/-- One lead on top of another. -/
noncomputable def add (l k : Lead) : Lead := ⟨l.logical + k.logical, l.offset + k.offset⟩

@[simp] theorem offset_add (l k : Lead) : (l.add k).offset = l.offset + k.offset := rfl

protected theorem zero_add (l : Lead) : zero.add l = l := by
  simp [add, zero]

/-- The lead after a list of lines, the first of which finds the dial in the given mode. -/
noncomputable def through (dial : Dial) (mode : Mode) (l : Lead) : List (Command Exact) → Lead
  | [] => l
  | c :: cs => through dial ((c.mode? dial).getD mode) (l.after (c.effect mode dial)) cs

theorem through_zero (dial : Dial) (mode : Mode) (cs : List (Command Exact)) : zero.through dial mode cs = zero := by
  induction cs generalizing mode with
  | nil => rfl
  | cons c cs ih => rw [through, zero_after, ih]

theorem offset_after {l : Lead} {e : Effect Exact} (bare : l.offset = 0) (undeclared : ∀ v, e ≠ .declare v) :
    (l.after e).offset = 0 := by
  cases e with
  | declare v => exact absurd rfl (undeclared v)
  | home => rfl
  | _ => exact bare

end Lead

/-- The line declares what the dial shows. -/
def Command.Declares (c : Command Exact) (dial : Dial) : Prop := ∃ mode v, c.effect mode dial = .declare v

/-- One of the lines, the first of which finds the dial in the given mode, sets it whatever it showed. -/
def Settles (dial : Dial) (mode : Mode) : List (Command Exact) → Prop
  | [] => False
  | c :: cs => c.effect mode dial = .home ∨ (∃ v, c.effect mode dial = .reach v) ∨
      Settles dial ((c.mode? dial).getD mode) cs

namespace Lead

variable {dial : Dial} {mode : Mode} {cs : List (Command Exact)} {l : Lead}

theorem offset_through (bare : l.offset = 0) (undeclared : ∀ c ∈ cs, ¬ c.Declares dial) :
    (l.through dial mode cs).offset = 0 := by
  induction cs generalizing l mode with
  | nil => exact bare
  | cons c cs ih =>
    obtain ⟨here, others⟩ := List.forall_mem_cons.mp undeclared
    exact ih (offset_after bare fun v declares => here ⟨mode, v, declares⟩) others

/-- Where nothing is declared, a line that sets the dial takes the lead away. -/
theorem through_of_settles (bare : l.offset = 0) (undeclared : ∀ c ∈ cs, ¬ c.Declares dial)
    (settles : Settles dial mode cs) : l.through dial mode cs = zero := by
  induction cs generalizing l mode with
  | nil => exact settles.elim
  | cons c cs ih =>
    obtain ⟨here, others⟩ := List.forall_mem_cons.mp undeclared
    rw [through]
    rcases settles with home | ⟨v, reach⟩ | later
    · rw [home]
      exact through_zero ..
    · have none : l.after (.reach v) = zero := by rw [after, bare, zero]
      rw [reach, none]
      exact through_zero ..
    · exact ih (offset_after bare fun v declares => here ⟨mode, v, declares⟩) others later

end Lead

/-- The dial that is so far ahead. -/
noncomputable def Gauge.ahead (g : Gauge Exact) (l : Lead) : Gauge Exact :=
  ⟨g.logical + .real l.logical, g.offset + .real l.offset⟩

@[simp] theorem Gauge.ahead_zero (g : Gauge Exact) : g.ahead .zero = g := by
  simp [Gauge.ahead, Lead.zero]

private theorem Gauge.ahead_ahead (g : Gauge Exact) (l k : Lead) : (g.ahead l).ahead k = g.ahead (l.add k) := by
  simp only [ahead, Lead.add, Exact.add_assoc, Exact.real_add]

theorem Gauge.physical_ahead (g : Gauge Exact) (l : Lead) : (g.ahead l).physical = g.physical + .real l.physical :=
  Exact.shift_add_shift ..

/-- What a line does to a dial, it does to one that is ahead. -/
private theorem Effect.apply_ahead (e : Effect Exact) (g : Gauge Exact) (l : Lead) :
    e.apply (g.ahead l) = (e.apply g).ahead (l.after e) := by
  cases e with
  | keep => rfl
  | reach value => simp [apply, Gauge.ahead, Lead.after]
  | lose => simp [apply, Gauge.ahead, Lead.after]
  | home => simp [apply, Lead.after]
  | advance value =>
    simp only [apply, Gauge.ahead, Lead.after, Gauge.mk.injEq, and_true]
    rw [Exact.add_assoc, Exact.add_comm (.real _), Exact.add_assoc]
  | declare value =>
    have unmoved : value - (g.logical + .real l.logical) = value - g.logical + .real (-l.logical) := by
      have := Exact.shift_sub_shift value g.logical 0 l.logical
      simpa using this
    simp only [apply, Gauge.ahead, Lead.after, Exact.add_zero, Gauge.mk.injEq, true_and, unmoved]
    rw [Exact.shift_sub_shift, sub_neg_eq_add]

namespace Machine

/-- The second machine is ahead of the first on a dial that both use in one mode. -/
def Ahead (dial : Dial) (l : Lead) (here there : Machine Exact) : Prop :=
  there.mode dial = here.mode dial ∧ there.gauge dial = (here.gauge dial).ahead l

variable {dial : Dial} {l : Lead} {here here' there there' : Machine Exact}

theorem Ahead.refl (m : Machine Exact) (dial : Dial) : Ahead dial .zero m m := ⟨rfl, (Gauge.ahead_zero _).symm⟩

theorem Ahead.trans {k : Lead} {mid : Machine Exact} (first : Ahead dial l here mid) (second : Ahead dial k mid there) :
    Ahead dial (l.add k) here there := by
  refine ⟨second.1.trans first.1, ?_⟩
  rw [second.2, first.2, Gauge.ahead_ahead]

theorem Ahead.after {c : Command Exact} (ahead : Ahead dial l here there) (stepped : here.after c = .ok here')
    (followed : there.after c = .ok there') :
    Ahead dial (l.after (c.effect (here.mode dial) dial)) here' there' := by
  obtain ⟨mode, gauge⟩ := ahead
  constructor
  · rw [after_mode followed, after_mode stepped, mode]
  · rw [after_gauge followed, after_gauge stepped, mode, gauge, Effect.apply_ahead]

/-- Whether a line has an outcome does not depend on the machine. -/
private theorem exists_after (there : Machine Exact) {c : Command Exact} (stepped : here.after c = .ok here') :
    ∃ there', there.after c = .ok there' :=
  after_isOk_iff.mpr (after_isOk_iff.mp ⟨here', stepped⟩)

theorem exists_replay (there : Machine Exact) {cs : List (Command Exact)} (replayed : here.replay cs = .ok here') :
    ∃ there', there.replay cs = .ok there' := by
  induction cs generalizing here there with
  | nil => exact ⟨there, rfl⟩
  | cons c cs ih =>
    obtain ⟨next, stepped, rest⟩ := replay_cons_eq_ok_iff.mp replayed
    obtain ⟨next', followed⟩ := exists_after there stepped
    obtain ⟨last', replayed'⟩ := ih next' rest
    exact ⟨last', replay_cons_eq_ok_iff.mpr ⟨next', followed, replayed'⟩⟩

theorem Ahead.replay {cs : List (Command Exact)} (ahead : Ahead dial l here there)
    (replayed : here.replay cs = .ok here') (followed : there.replay cs = .ok there') :
    Ahead dial (l.through dial (here.mode dial) cs) here' there' := by
  induction cs generalizing here there l with
  | nil => cases replayed; cases followed; exact ahead
  | cons c cs ih =>
    obtain ⟨next, stepped, rest⟩ := replay_cons_eq_ok_iff.mp replayed
    obtain ⟨next', stepped', rest'⟩ := replay_cons_eq_ok_iff.mp followed
    rw [Lead.through, ← after_mode stepped]
    exact ih (ahead.after stepped stepped') rest rest'

theorem through_append (l : Lead) {cs : List (Command Exact)} (replayed : here.replay cs = .ok here')
    (ds : List (Command Exact)) : l.through dial (here.mode dial) (cs ++ ds) =
      (l.through dial (here.mode dial) cs).through dial (here'.mode dial) ds := by
  induction cs generalizing here l with
  | nil => cases replayed; rfl
  | cons c cs ih =>
    obtain ⟨next, stepped, rest⟩ := replay_cons_eq_ok_iff.mp replayed
    rw [List.cons_append, Lead.through, Lead.through, ← after_mode stepped, ih _ rest]

/-- The machines agree on all but the height and the filament. -/
structure Level (here there : Machine Exact) : Prop where
  x : Ahead (.axis .x) .zero here there
  y : Ahead (.axis .y) .zero here there
  extrusionMode : there.extrusionMode = here.extrusionMode
  feedRate : there.feedRate = here.feedRate

theorem Level.after {c : Command Exact} (level : Level here there) (stepped : here.after c = .ok here')
    (followed : there.after c = .ok there') : Level here' there' where
  x := Lead.zero_after _ ▸ level.x.after stepped followed
  y := Lead.zero_after _ ▸ level.y.after stepped followed
  extrusionMode := by
    have mode (m : Machine Exact) : m.extrusionMode = m.mode .filament := rfl
    rw [mode, mode, after_mode followed, after_mode stepped, ← mode, level.extrusionMode, ← mode]
  feedRate := by rw [after_feedRate followed, after_feedRate stepped, level.feedRate]

theorem Level.passage {ts us : List (Transition Exact)} (level : Level here there) (front : Passage here ts here')
    (back : Passage there us there') (lines : us.map (·.line) = ts.map (·.line)) :
    Level here' there' ∧ List.Forall₂ (fun t u => u.line = t.line ∧ Level t.after u.after) ts us := by
  induction front generalizing there us with
  | nil => rw [List.map_nil, List.map_eq_nil_iff] at lines; subst lines; cases back; exact ⟨level, .nil⟩
  | cons stepped rest ih =>
    cases back with
    | nil => cases lines
    | cons followed more =>
      obtain ⟨same, later⟩ := List.cons.inj lines
      cases same
      have next := level.after stepped followed
      obtain ⟨last, all⟩ := ih next more later
      exact ⟨last, .cons ⟨rfl, next⟩ all⟩

end Machine

end Seam
