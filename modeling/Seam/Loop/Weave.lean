import Seam.Loop.Cut
import Seam.Loop.Run
import Seam.Tuning

/-!
The tapered form of a loop. The section that the overlap covers is travelled
twice: first with extrusion ramping up and the height rising from one layer
below, and again behind the untouched rest of the loop with extrusion ramping
down. Every synthesized line is mapped back to the frame of the machine that
meets it, and where extrusion is given as a total, the total that the rest of
the program counts from is declared again.
-/
namespace Seam.Weave

variable {α : Type} [Scalar α]

/-- The text of the comment before a tapered loop. -/
def startMarker : String := "SCARF_LOOP_START"

/-- The text of the comment behind a tapered loop. -/
def endMarker : String := "SCARF_LOOP_END"

/-- Totals of extrusion that differ by less than this are the same. -/
def extrusionTolerance : α := Scalar.ofPlaces 1 9

/-- The line that moves the machine to a physical point while it pushes an
    amount of filament. The height is written only if `withHeight`, the feed rate
    only if it is known and not in effect already. -/
def moveTo (m : Machine α) (point : Point α) (extrusion : α) (feedRate : Option α) (withHeight : Bool) :
    Command α :=
  let logical := m.toLogical point
  let e := match m.extrusionMode with
    | .relative => extrusion
    | .absolute => m.extrusion + extrusion
  let feed := match feedRate with
    | none => []
    | some feed => if m.feedRate == some feed then [] else [('F', feed)]
  .ofWords .linearMove
    ⟨[('X', logical.x), ('Y', logical.y)] ++ (if withHeight then [('Z', logical.z)] else []) ++
      ('E', e) :: feed⟩

/-- The line, if one is needed, that declares the total of extrusion from which
    the program counts on. -/
def declareTotal (m : Machine α) (total : α) : List (Command α) :=
  if m.extrusionMode = .absolute ∧ ¬ Scalar.abs (m.extrusion - total) < extrusionTolerance then
    [.ofWords .setPosition ⟨[('E', total)]⟩]
  else []

/-- The lines that the machine meets when every step becomes a line or none,
    and the machine behind them. -/
def emit (line? : Machine α → Step α → Except (Fault α) (Option (Command α))) (m : Machine α) :
    List (Step α) → Except (Fault α) (List (Command α) × Machine α)
  | [] => .ok ([], m)
  | step :: steps => do
    match ← line? m step with
    | none => emit line? m steps
    | some c =>
      let next ← m.after c
      let (commands, last) ← emit line? next steps
      return (c :: commands, last)

/-- The height of a step of the starting taper: one layer below where the ramp
    is at zero, that of the loop where it is at one, and never below the floor. -/
def risingHeight (layerHeight floor t : α) (z : α) : α := Scalar.max (z - (1 - t) * layerHeight) floor

/-- The line of the starting taper for a step. -/
def rising (layerHeight floor : α) (m : Machine α) : Step α → Command α
  | .other c => c
  | .still move => moveTo m move.stop move.extrusion move.feedRate true
  | .ramped move t =>
    let point : Point α := ⟨move.stop.x, move.stop.y, risingHeight layerHeight floor t move.stop.z⟩
    moveTo m point (move.extrusion * t) move.feedRate true

/-- The line of the ending taper for a step: a move that stands still has none,
    and the height is left as it is. -/
def falling (m : Machine α) : Step α → Except (Fault α) (Option (Command α))
  | .other c => .ok (some c)
  | .still _ => .ok none
  | .ramped move t =>
    m.physicalPosition.map fun here =>
      some (moveTo m ⟨move.stop.x, move.stop.y, here.z⟩ (move.extrusion * (1 - t)) move.feedRate false)

/-- The line that travels what is left of the cut move. -/
def tailLine (floor : α) (m : Machine α) (tail : Move α) : Command α :=
  moveTo m ⟨tail.stop.x, tail.stop.y, Scalar.max tail.stop.z floor⟩ tail.extrusion tail.feedRate true

/-- The lines between the starting taper and the rest of the loop, for a loop
    whose count of extrusion stands at `total` behind the cut move. -/
def joint (floor total : α) (tail : Option (Move α)) (m : Machine α) : Except (Fault α) (List (Command α)) :=
  match tail with
  | none => .ok (declareTotal m total)
  | some move => do
    let declaration := declareTotal m (total - move.extrusion)
    let declared ← m.replay declaration
    return declaration ++ [tailLine floor declared move]

/-- What became of a loop. -/
inductive Outcome (α : Type) where
  /-- The lines that take its place. -/
  | tapered (commands : List (Command α))
  /-- The line that cannot be replayed behind the loop, because it would change
      what coordinates mean a second time. -/
  | abandoned (culprit : Command α)
deriving Repr, DecidableEq

/-- The lines between the two markers, if markers are wanted. -/
def bracket (markers : Bool) (commands : List (Command α)) : List (Command α) :=
  if markers then .comment startMarker :: (commands ++ [.comment endMarker]) else commands

/-- The tapered form of a run with the given path, no synthesized move of which
    goes below the floor. -/
def weave (tuning : Tuning α) (floor : α) (markers : Bool) (run : Run α) (segments : List (Segment α)) :
    Except (Fault α) (Outcome α) := do
  let overlap := Segment.effectiveOverlap tuning.overlap (Segment.pathLength segments)
  let cut := Cut.ofLength overlap segments
  let steps := Ramp.steps overlap (Segment.resample tuning.taperResolution cut.taper)
  let (starting, risen) ← emit (fun m step => .ok (some (rising tuning.layerHeight floor m step))) run.start steps
  let boundary ← run.start.replay (run.commands.take cut.remainder)
  let joining ← joint floor boundary.extrusion cut.tail risen
  let rest := run.commands.drop cut.remainder
  let joined ← risen.replay (joining ++ rest)
  let (ending, fallen) ← emit falling joined (steps.takeWhile fun step => step.alteration?.isNone)
  match steps.findSome? Step.alteration? with
  | some culprit => return .abandoned culprit
  | none =>
    return .tapered
      (bracket markers (starting ++ joining ++ rest ++ ending ++ declareTotal fallen run.finish.extrusion))

end Seam.Weave
