import Seam.Machine

/-!
Runs of extrusion, and the paths of loops. A run is the longest beginning of a list of
lines after each of which the machine is still extruding, so comments and lines that are
kept as they stand stay inside it. A run whose end lies near its start is a loop. Its path
in the physical frame has one segment for every line, a move for a straight motion and the
line itself for anything else. Loops with arcs or homing, with coordinates given as
displacements, with unknown positions, or with a change of height have no such path.
-/
namespace Seam

variable {α : Type} [Scalar α]

namespace Machine

/-- The lines after each of which the machine is still extruding, and the
    machine after them. The line that ends the extrusion is left out. -/
def extruding (m : Machine α) : List (Command α) → Except (Fault α) (List (Command α) × Machine α)
  | [] => .ok ([], m)
  | c :: cs =>
    match m.after c with
    | .error fault => .error fault
    | .ok next =>
      if next.extruded then
        match next.extruding cs with
        | .error fault => .error fault
        | .ok (taken, last) => .ok (c :: taken, last)
      else .ok ([], m)

theorem replay_of_extruding {m last : Machine α} {cs taken : List (Command α)}
    (run : m.extruding cs = .ok (taken, last)) : m.replay taken = .ok last := by
  induction cs generalizing m taken with
  | nil =>
    simp only [extruding, Except.ok.injEq, Prod.mk.injEq] at run
    obtain ⟨rfl, rfl⟩ := run
    rfl
  | cons c cs ih =>
    unfold extruding at run
    split at run
    · cases run
    · next next stepped =>
      split at run
      · split at run
        · cases run
        · next rest ends continued =>
          simp only [Except.ok.injEq, Prod.mk.injEq] at run
          obtain ⟨rfl, rfl⟩ := run
          rw [replay_cons, stepped]
          exact ih continued
      · simp only [Except.ok.injEq, Prod.mk.injEq] at run
        obtain ⟨rfl, rfl⟩ := run
        rfl

end Machine

/-- Lines with the machine before and after them. -/
structure Run (α : Type) [Scalar α] where
  start : Machine α
  commands : List (Command α)
  finish : Machine α
  replays : start.replay commands = .ok finish

namespace Run

/-- The run of all the given lines, extruding or not. -/
def ofCommands (start : Machine α) (commands : List (Command α)) : Except (Fault α) (Run α) :=
  match replays : start.replay commands with
  | .error fault => .error fault
  | .ok finish => .ok ⟨start, commands, finish, replays⟩

/-- The run of extrusion at the front of the given lines. -/
def extract (start : Machine α) (commands : List (Command α)) : Except (Fault α) (Run α) :=
  match run : start.extruding commands with
  | .error fault => .error fault
  | .ok (taken, finish) => .ok ⟨start, taken, finish, Machine.replay_of_extruding run⟩

/-- Does the run end nearer to its start than the tolerance? Where either is
    unknown, it does not. -/
def isClosed (r : Run α) (tolerance : α) : Bool :=
  r.start.physicalKnown && r.finish.physicalKnown &&
    decide (r.start.physical.distance r.finish.physical < tolerance)

end Run

/-- A straight motion in the physical frame. -/
structure Move (α : Type) where
  start : Point α
  stop : Point α
  /-- The filament pushed along the way. -/
  extrusion : α
  /-- The feed rate in effect, if one was ever commanded. -/
  feedRate : Option α
deriving Repr, DecidableEq

/-- A piece of a loop. -/
inductive Segment (α : Type) where
  | move (m : Move α)
  /-- A line that does not move the head, replayed as it stands. -/
  | other (c : Command α)
deriving Repr, DecidableEq

def Move.length (m : Move α) : α := m.start.distance m.stop

namespace Segment

/-- The length of the way, none for a line that does not move the head. -/
def length : Segment α → α
  | .move m => m.length
  | .other _ => 0

/-- Ways shorter than this count as standing still. -/
def leastLength : α := Scalar.ofPlaces 1 9

/-- Heights that differ by no more than this are in the same layer. -/
def layerTolerance : α := Scalar.ofPlaces 1 6

/-- The segment that a line adds to a path in the layer at the given height. -/
def ofStep? (height : α) (before after : Machine α) (c : Command α) : Option (Segment α) :=
  if after.positioning != .absolute || !after.physicalKnown then none
  else
    match c.code? with
    | none => some (.other c)
    | some code =>
      if code.isArc || code = .home then none
      else if code.isLinear then
        if layerTolerance < Scalar.abs (after.physical.z - height) then none
        else
          some (.move ⟨before.physical, after.physical, after.extrusion - before.extrusion, after.feedRate⟩)
      else some (.other c)

/-- The segments of the given lines in the layer at the given height. -/
def trace (height : α) (m : Machine α) : List (Command α) → Except (Fault α) (Option (List (Segment α)))
  | [] => .ok (some [])
  | c :: cs => do
    let next ← m.after c
    match ofStep? height m next c with
    | none => return none
    | some segment => return (← trace height next cs).map (segment :: ·)

/-- The path of the given lines, if they are one. -/
def path? (start : Machine α) (commands : List (Command α)) : Except (Fault α) (Option (List (Segment α))) :=
  if start.physicalKnown then trace start.physical.z start commands else .ok none

/-- The length of a path, added up from its start. -/
def pathLength (segments : List (Segment α)) : α := Scalar.sum (segments.map length)

/-- The overlap that a loop of the given length gets: a third of it at most. -/
def effectiveOverlap (requested loopLength : α) : α := Scalar.min requested (loopLength / 3)

end Segment

end Seam
