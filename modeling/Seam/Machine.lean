import Seam.Geometry.Point
import Seam.Command.Basic

/-!
The machine that follows the lines of a program. Positions are kept in two frames. The
logical frame is the one in which the controller counts; the physical frame is where the
head really is, and differs from the logical one by an offset that declarations of the
position shift and homing clears. Extrusion has the same two counts. Only homing
untrusted axes alone has no outcome. The lowest height that a program commands on its way
is its floor.
-/
namespace Seam

/-- Whether numbers are totals or amounts to be added. -/
inductive Mode where
  | absolute
  | relative
deriving Repr, DecidableEq

/-- What is known of the machine. -/
structure Machine (α : Type) where
  /-- How coordinates are meant. -/
  positioning : Mode
  /-- How extrusion is meant, whatever the coordinates mean. -/
  extrusionMode : Mode
  /-- The position in the controller's frame. -/
  position : Point α
  /-- The physical position less the logical one. -/
  offset : Point α
  /-- The filament pushed so far in the controller's count. -/
  extrusion : α
  /-- The physical count of filament less the logical one. -/
  extrusionOffset : α
  /-- The feed rate commanded last. -/
  feedRate : Option α
  /-- Did the last motion push filament? -/
  extruded : Bool
deriving Repr, DecidableEq

namespace Machine

variable {α : Type} [Scalar α]

/-- The machine when it is switched on: it does not know where it stands. -/
def powerOn : Machine α where
  positioning := .absolute
  extrusionMode := .relative
  position := Point.unknown
  offset := Point.origin
  extrusion := 0
  extrusionOffset := 0
  feedRate := none
  extruded := false

def positionKnown (m : Machine α) : Bool := m.position.isKnown

/-- The physical coordinates, known or not. -/
def physical (m : Machine α) : Point α := m.position + m.offset

/-- Is the physical position known on all axes? A declared position makes the
    logical coordinate known, but not the offset of an axis never homed. -/
def physicalKnown (m : Machine α) : Bool := m.position.isKnown && m.physical.isKnown

/-- Where the head is, if that is known. -/
def physicalPosition (m : Machine α) : Except (Fault α) (Point α) :=
  if m.physicalKnown then .ok m.physical else .error .unknownPosition

/-- The logical coordinates of a physical point. -/
def toLogical (m : Machine α) (physical : Point α) : Point α := physical - m.offset

/-- The filament pushed so far, whatever was declared in between. -/
def physicalExtrusion (m : Machine α) : α := m.extrusion + m.extrusionOffset

theorem physicalPosition_eq_ok_iff (m : Machine α) (p : Point α) :
    m.physicalPosition = .ok p ↔ m.physicalKnown = true ∧ p = m.physical := by
  unfold physicalPosition
  split
  case isTrue known => simp only [Except.ok.injEq, known, true_and, eq_comm]
  case isFalse unknown => simp only [reduceCtorEq, unknown, false_and]

/-- The logical coordinate on an axis that a move leads to. -/
def target (m : Machine α) (w : Words α) (axis : Axis) : α :=
  match m.positioning with
  | .absolute => (w.axis? axis).getD (m.position.get axis)
  | .relative => m.position.get axis + (w.axis? axis).getD 0

/-- The logical count of filament that a motion leads to. -/
def extrusionTarget (m : Machine α) (w : Words α) : α :=
  match m.extrusionMode with
  | .absolute => (w.get? 'E').getD m.extrusion
  | .relative => m.extrusion + (w.get? 'E').getD 0

/-- The machine after a motion to a logical position: extrusion and feed rate
    are those of the words. -/
def move (m : Machine α) (w : Words α) (position : Point α) : Machine α :=
  let extrusion := m.extrusionTarget w
  { m with
    position := position
    extrusion := extrusion
    feedRate := (w.get? 'F').orElse fun _ => m.feedRate
    extruded := decide (m.extrusion < extrusion) }

/-- The machine after homing the axes that are named, or all if none is. -/
def home (m : Machine α) (w : Words α) : Machine α :=
  let homed (axis : Axis) : Bool := !w.hasAxis || (w.axis? axis).isSome
  { m with
    position := Point.ofFn fun axis => if homed axis then 0 else m.position.get axis
    offset := Point.ofFn fun axis => if homed axis then 0 else m.offset.get axis }

/-- The machine after its logical position is declared on some axes; the
    physical position stays. -/
def declarePosition (m : Machine α) (declared : Axis → Option α) : Machine α :=
  { m with
    position := Point.ofFn fun axis => (declared axis).getD (m.position.get axis)
    offset := Point.ofFn fun axis =>
      match declared axis with
      | none => m.offset.get axis
      | some value => m.offset.get axis - (value - m.position.get axis) }

/-- The machine after its logical count of filament is declared; the physical
    count stays. -/
def declareExtrusion (m : Machine α) : Option α → Machine α
  | none => m
  | some value =>
    { m with
      extrusion := value
      extrusionOffset := m.extrusionOffset - (value - m.extrusion) }

/-- The machine after a tracked instruction. An arc leads to coordinates that
    are not followed, within its plane. -/
def step (m : Machine α) (i : Instruction α) : Except (Fault α) (Machine α) :=
  match i.code with
  | .rapidMove | .linearMove => .ok (m.move i.words (Point.ofFn (m.target i.words)))
  | .clockwiseArc | .counterclockwiseArc =>
    .ok (m.move i.words ⟨Scalar.infinity, Scalar.infinity, m.position.z⟩)
  | .home => if i.words.contains 'O' then .error (.trustedHoming 0) else .ok (m.home i.words)
  | .absolutePositioning => .ok { m with positioning := .absolute }
  | .relativePositioning => .ok { m with positioning := .relative }
  | .setPosition => .ok ((m.declarePosition i.words.axis?).declareExtrusion (i.words.get? 'E'))
  | .resetPosition => .ok (m.declarePosition fun _ => some 0)
  | .absoluteExtrusion => .ok { m with extrusionMode := .absolute }
  | .relativeExtrusion => .ok { m with extrusionMode := .relative }

/-- The machine after a line. Comments and lines kept as they stand do nothing. -/
def after (m : Machine α) : Command α → Except (Fault α) (Machine α)
  | .instruction i => m.step i
  | .comment _ | .verbatim _ => .ok m

def replay (m : Machine α) (commands : List (Command α)) : Except (Fault α) (Machine α) :=
  commands.foldlM after m

/-- Would the line move the head and push filament? -/
def wouldExtrude (m : Machine α) (c : Command α) : Except (Fault α) Bool :=
  if c.isMotion then (m.after c).map (·.extruded) else .ok false

@[simp] theorem replay_nil (m : Machine α) : m.replay [] = .ok m := rfl

@[simp] theorem replay_cons (m : Machine α) (c : Command α) (cs : List (Command α)) :
    m.replay (c :: cs) = (m.after c).bind (·.replay cs) := rfl

theorem replay_append (m : Machine α) (cs ds : List (Command α)) :
    m.replay (cs ++ ds) = (m.replay cs).bind (·.replay ds) :=
  List.foldlM_append

end Machine

namespace Floor

variable {α : Type} [Scalar α]

/-- The height at which the head stands, where it counts for the floor. -/
def height? (m : Machine α) : Option α :=
  if m.positioning = .absolute && m.positionKnown then some (m.position.z + m.offset.z) else none

/-- The floor after the machine has come to a state. -/
def lower (floor : α) (m : Machine α) : Except (Fault α) α :=
  match height? m with
  | none => .ok floor
  | some z =>
    if Scalar.isFinite z then .ok (if z < floor then z else floor) else .error (.floorUndetermined z)

/-- The lowest height at which the head is while coordinates are positions and its own is known, the bed at most. -/
def ofCommands (commands : List (Command α)) : Except (Fault α) α := do
  let (_, floor) ← commands.foldlM (fun (m, floor) c => do
    let next ← m.after c
    return (next, ← lower floor next)) (Machine.powerOn, 0)
  return floor

end Floor

end Seam
