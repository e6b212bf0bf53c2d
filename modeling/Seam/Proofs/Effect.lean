import Seam.Machine

/-!
What a line does to a machine, one dial at a time. The three axes and the
filament are dials alike: each shows a logical count, which together with an
offset gives the physical one, and a line does one of six things to it. All that
is known of a step follows from what it does to the dials (`after_gauge`), to the
modes (`after_mode`) and to the feed rate (`after_feedRate`).
-/
namespace Seam

/-- The dials of a machine. -/
inductive Dial where
  | axis (a : Axis)
  | filament
deriving Repr, DecidableEq

/-- What a dial shows, and what is to be added for the physical count. -/
structure Gauge (α : Type) where
  logical : α
  offset : α
deriving Repr, DecidableEq

def Gauge.physical {α : Type} [Scalar α] (g : Gauge α) : α := g.logical + g.offset

/-- What a line does to a dial. -/
inductive Effect (α : Type) where
  | keep
  | reach (value : α)
  | advance (value : α)
  /-- The count is not followed any further. -/
  | lose
  /-- Count and offset begin anew. -/
  | home
  /-- The count is given a new name; the physical one stays. -/
  | declare (value : α)
deriving Repr, DecidableEq

def Effect.apply {α : Type} [Scalar α] : Effect α → Gauge α → Gauge α
  | keep, g => g
  | reach value, g => { g with logical := value }
  | advance value, g => { g with logical := g.logical + value }
  | lose, g => { g with logical := Scalar.infinity }
  | home, _ => ⟨0, 0⟩
  | declare value, g => ⟨value, g.offset - (value - g.logical)⟩

namespace Machine

variable {α : Type}

/-- What the machine shows on a dial. -/
def gauge (m : Machine α) : Dial → Gauge α
  | .axis a => ⟨m.position.get a, m.offset.get a⟩
  | .filament => ⟨m.extrusion, m.extrusionOffset⟩

/-- How numbers for a dial are meant. -/
def mode (m : Machine α) : Dial → Mode
  | .axis _ => m.positioning
  | .filament => m.extrusionMode

end Machine

namespace Command

variable {α : Type} [Scalar α]

def number? (c : Command α) (dial : Dial) : Option α :=
  c.words?.bind fun w => match dial with
    | .axis a => w.axis? a
    | .filament => w.get? 'E'

/-- What a motion with the given number does to a dial. -/
def drive (number : Option α) : Mode → Effect α
  | .absolute => number.elim .keep .reach
  | .relative => .advance (number.getD 0)

/-- What the line does to a dial whose numbers are meant in the given mode. -/
def effect (c : Command α) (mode : Mode) (dial : Dial) : Effect α :=
  match c.code?, dial with
  | some .rapidMove, _ | some .linearMove, _ => drive (c.number? dial) mode
  | some .clockwiseArc, .filament | some .counterclockwiseArc, .filament => drive (c.number? dial) mode
  | some .clockwiseArc, .axis a | some .counterclockwiseArc, .axis a => if a = .z then .keep else .lose
  | some .home, .axis _ => if !c.words?.any Words.hasAxis || (c.number? dial).isSome then .home else .keep
  | some .setPosition, _ => (c.number? dial).elim .keep .declare
  | some .resetPosition, .axis _ => .declare 0
  | _, _ => .keep

/-- The mode that the line sets for a dial, if it sets one. -/
def mode? (c : Command α) : Dial → Option Mode
  | .axis _ => match c.code? with
    | some .absolutePositioning => some .absolute
    | some .relativePositioning => some .relative
    | _ => none
  | .filament => match c.code? with
    | some .absoluteExtrusion => some .absolute
    | some .relativeExtrusion => some .relative
    | _ => none

def feed? (c : Command α) : Option α :=
  if c.isMotion then c.words?.bind (·.get? 'F') else none

/-- A straight motion drives every dial by its number. -/
theorem effect_of_isLinear {c : Command α} (linear : c.isLinear = true) (mode : Mode) (dial : Dial) :
    c.isMotion = true ∧ c.effect mode dial = drive (c.number? dial) mode := by
  cases c with
  | comment => cases linear
  | verbatim => cases linear
  | instruction i =>
    obtain ⟨code, w, _⟩ := i
    cases code
    case rapidMove | linearMove => exact ⟨rfl, rfl⟩
    all_goals cases linear

/-- Does the line home axes that it does not trust? -/
def isUntrusted (c : Command α) : Bool := c.code? = some .home && c.words?.any (·.contains 'O')

end Command

namespace Machine

variable {α : Type} [Scalar α] {m next : Machine α} {c : Command α}

theorem after_eq_error_iff {fault : Fault α} : m.after c = .error fault ↔ c.isUntrusted = true ∧ fault = .trustedHoming 0 := by
  cases c with
  | comment => simp [after, Command.isUntrusted, Command.code?]
  | verbatim => simp [after, Command.isUntrusted, Command.code?]
  | instruction i =>
    obtain ⟨code, w, _⟩ := i
    cases code
    case home =>
      simp only [after, step, Command.isUntrusted, Command.code?, Command.words?, Option.any_some]
      by_cases untrusted : w.contains 'O' = true <;> simp [untrusted, eq_comm]
    all_goals simp [after, step, Command.isUntrusted, Command.code?]

/-- Only homing untrusted axes has no outcome. -/
theorem after_isOk_iff : (∃ next, m.after c = .ok next) ↔ c.isUntrusted = false := by
  rw [← Bool.not_eq_true]
  cases stepped : m.after c with
  | ok next =>
    refine iff_of_true ⟨next, rfl⟩ fun untrusted => ?_
    cases stepped.symm.trans (after_eq_error_iff.mpr ⟨untrusted, rfl⟩)
  | error fault => exact iff_of_false (by rintro ⟨_, ⟨⟩⟩) fun trusted => trusted (after_eq_error_iff.mp stepped).1

theorem drive_apply (number : Option α) (mode : Mode) (g : Gauge α) :
    (Command.drive number mode).apply g =
      { g with logical := match mode with
        | .absolute => number.getD g.logical
        | .relative => g.logical + number.getD 0 } := by
  cases mode <;> cases number <;> rfl

private theorem move_filament (w : Words α) (position : Point α) :
    (m.move w position).gauge .filament = (Command.drive (w.get? 'E') m.extrusionMode).apply (m.gauge .filament) := by
  rw [drive_apply]
  cases mode : m.extrusionMode <;> simp only [gauge, move, extrusionTarget, mode]

theorem after_gauge (stepped : m.after c = .ok next) (dial : Dial) :
    next.gauge dial = (c.effect (m.mode dial) dial).apply (m.gauge dial) := by
  cases c with
  | comment => cases stepped; rfl
  | verbatim => cases stepped; rfl
  | instruction i =>
    obtain ⟨code, w, _⟩ := i
    cases code <;> simp only [after, step, Except.ok.injEq] at stepped
    case rapidMove | linearMove =>
      subst stepped
      cases dial with
      | filament => exact move_filament ..
      | axis a =>
        show Gauge.mk ((Point.ofFn (m.target w)).get a) _ = (Command.drive (w.axis? a) m.positioning).apply _
        rw [drive_apply, Point.get_ofFn, target]
        rfl
    case clockwiseArc | counterclockwiseArc =>
      subst stepped
      cases dial with
      | filament => exact move_filament ..
      | axis a => cases a <;> rfl
    case home =>
      split at stepped
      · cases stepped
      · cases stepped
        cases dial with
        | filament => rfl
        | axis a =>
          simp only [gauge, home, Point.get_ofFn, Command.effect, Command.code?, Command.words?, Command.number?,
            Option.any_some, Option.bind_some]
          by_cases homed : (!w.hasAxis || (w.axis? a).isSome) = true <;>
            simp only [homed, ↓reduceIte, Bool.false_eq_true] <;> rfl
    case setPosition =>
      subst stepped
      cases dial with
      | filament =>
        show _ = ((w.get? 'E').elim Effect.keep Effect.declare).apply _
        cases w.get? 'E' <;> rfl
      | axis a =>
        show _ = ((w.axis? a).elim Effect.keep Effect.declare).apply _
        cases extruded : w.get? 'E' <;> cases declared : w.axis? a <;>
          simp only [gauge, declareExtrusion, declarePosition, Point.get_ofFn, declared] <;> rfl
    case resetPosition =>
      subst stepped
      cases dial with
      | filament => rfl
      | axis a => simp only [gauge, declarePosition, Point.get_ofFn]; rfl
    all_goals subst stepped; cases dial <;> rfl

/-- What a line does besides: to the modes, the feed rate and the mark of extrusion. -/
private theorem after_controls (stepped : m.after c = .ok next) :
    (∀ dial, next.mode dial = (c.mode? dial).getD (m.mode dial)) ∧
      next.feedRate = c.feed?.or m.feedRate ∧
      next.extruded = if c.isMotion then decide (m.extrusion < next.extrusion) else m.extruded := by
  cases c with
  | comment => cases stepped; exact ⟨fun dial => by cases dial <;> rfl, rfl, rfl⟩
  | verbatim => cases stepped; exact ⟨fun dial => by cases dial <;> rfl, rfl, rfl⟩
  | instruction i =>
    obtain ⟨code, w, _⟩ := i
    cases code <;> simp only [after, step, Except.ok.injEq] at stepped
    case home =>
      split at stepped
      · cases stepped
      · cases stepped; exact ⟨fun dial => by cases dial <;> rfl, rfl, rfl⟩
    case setPosition =>
      subst stepped
      cases extruded : w.get? 'E' <;> exact ⟨fun dial => by cases dial <;> rfl, rfl, rfl⟩
    case rapidMove | linearMove | clockwiseArc | counterclockwiseArc =>
      subst stepped
      refine ⟨fun dial => by cases dial <;> rfl, ?_, rfl⟩
      show (w.get? 'F').orElse _ = (w.get? 'F').or _
      cases w.get? 'F' <;> rfl
    all_goals subst stepped; exact ⟨fun dial => by cases dial <;> rfl, rfl, rfl⟩

theorem after_mode (stepped : m.after c = .ok next) (dial : Dial) :
    next.mode dial = (c.mode? dial).getD (m.mode dial) :=
  (after_controls stepped).1 dial

theorem after_feedRate (stepped : m.after c = .ok next) :
    next.feedRate = c.feed?.or m.feedRate :=
  (after_controls stepped).2.1

theorem after_extruded (stepped : m.after c = .ok next) :
    next.extruded = if c.isMotion then decide (m.extrusion < next.extrusion) else m.extruded :=
  (after_controls stepped).2.2

end Machine

end Seam
