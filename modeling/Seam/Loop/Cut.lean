import Seam.Loop.Run

/-!
Cutting a path where it has reached a length, dividing its moves into steps, and the
ramp over the section that is cut off. Cuts and steps share out the filament of a move in
proportion to the way. The ramp rises from zero at the end of the section's first step to
one at its last, in proportion to the way. A section of a single step has no room to ramp
and is at one throughout.
-/
namespace Seam

/-- A path cut in two. -/
structure Cut (α : Type) where
  /-- The path up to the length. -/
  taper : List (Segment α)
  /-- What is left of the move in which the length was reached. -/
  tail : Option (Move α)
  /-- How many lines of the path are cut off, the cut one included. -/
  remainder : Nat
deriving Repr, DecidableEq

variable {α : Type} [Scalar α]

namespace Move

/-- The beginning of a move up to a fraction of it. -/
def upTo (m : Move α) (fraction : α) : Move α :=
  { m with stop := m.start.along m.stop fraction, extrusion := m.extrusion * fraction }

/-- The end of a move from a fraction of it on. -/
def onFrom (m : Move α) (fraction : α) : Move α :=
  { m with start := m.start.along m.stop fraction, extrusion := m.extrusion * (1 - fraction) }

/-- The step from the fraction `i / n` of a move to the next such fraction. -/
def step (m : Move α) (n i : Nat) : Move α where
  start := m.start.along m.stop (Scalar.ofNat i / Scalar.ofNat n)
  stop := m.start.along m.stop (Scalar.ofNat (i + 1) / Scalar.ofNat n)
  extrusion := m.extrusion / Scalar.ofNat n
  feedRate := m.feedRate

/-- The least number of equal steps, none longer than the resolution; a move
    that is not longer stays as it is. -/
def steps (resolution : α) (m : Move α) : List (Move α) :=
  if resolution < m.length then
    let n := Scalar.ceil (m.length / resolution)
    (List.range n).map (m.step n)
  else [m]

end Move

namespace Cut

/-- The cut with one more segment in front. -/
def after (segment : Segment α) (cut : Cut α) : Cut α :=
  { cut with taper := segment :: cut.taper, remainder := cut.remainder + 1 }

/-- The cut inside a move, at a fraction of it. -/
def inside (m : Move α) (fraction : α) : Cut α where
  taper := [.move (m.upTo fraction)]
  tail := if fraction < 1 then some (m.onFrom fraction) else none
  remainder := 1

/-- The cut of a path on which some way is already behind. -/
def resume (length travelled : α) : List (Segment α) → Cut α
  | [] => ⟨[], none, 0⟩
  | .other c :: rest => (resume length travelled rest).after (.other c)
  | .move m :: rest =>
    if Segment.leastLength < m.length ∧ length ≤ travelled + m.length then
      inside m (Scalar.clamp ((length - travelled) / m.length))
    else (resume length (travelled + m.length) rest).after (.move m)

/-- The path cut in the first move, of those that do not stand still, in which
    it reaches the length; all of it if it never does. -/
def ofLength (length : α) (segments : List (Segment α)) : Cut α := resume length 0 segments

end Cut

namespace Segment

/-- The segment divided into steps not longer than the resolution. -/
def steps (resolution : α) : Segment α → List (Segment α)
  | .move m => (m.steps resolution).map .move
  | .other c => [.other c]

def resample (resolution : α) (segments : List (Segment α)) : List (Segment α) :=
  segments.flatMap (steps resolution)

end Segment

/-- The way at which the ramp begins to rise, and the way that it rises on. -/
structure Ramp (α : Type) where
  firstStep : α
  span : α
deriving Repr, DecidableEq

/-- A segment of a taper section with its place on the ramp. -/
inductive Step (α : Type) where
  /-- A line that does not move the head. -/
  | other (c : Command α)
  | still (m : Move α)
  /-- A move with the height of the ramp at its end. -/
  | ramped (m : Move α) (t : α)
deriving Repr, DecidableEq

/-- The line of a step that changes what coordinates mean, if it is one. -/
def Step.alteration? : Step α → Option (Command α)
  | .other c => if c.altersFrame then some c else none
  | _ => none

namespace Ramp

/-- The ramp over a section that covers the overlap. -/
def ofSection (overlap : α) (taperSection : List (Segment α)) : Ramp α :=
  let firstStep := ((taperSection.map Segment.length).find? fun d => Segment.leastLength < d).getD 0
  ⟨firstStep, overlap - firstStep⟩

/-- The height of the ramp after the given way. -/
def height (r : Ramp α) (travelled : α) : α :=
  if r.span ≤ Segment.leastLength then 1 else Scalar.clamp ((travelled - r.firstStep) / r.span)

/-- The places of the segments on the ramp when some way is already behind. -/
def place (r : Ramp α) (travelled : α) : List (Segment α) → List (Step α)
  | [] => []
  | .other c :: rest => .other c :: r.place travelled rest
  | .move m :: rest =>
    if m.length ≤ Segment.leastLength then .still m :: r.place travelled rest
    else .ramped m (r.height (travelled + m.length)) :: r.place (travelled + m.length) rest

/-- The steps of a section that covers the overlap. -/
def steps (overlap : α) (taperSection : List (Segment α)) : List (Step α) :=
  (ofSection overlap taperSection).place 0 taperSection

end Ramp

end Seam
