import Seam.Number.Scalar

/-!
The four lengths that tune the rewriting, in millimetres.
-/
namespace Seam

/-- How loops are found and rewritten. -/
structure Tuning (α : Type) where
  /-- How far below the loop the starting taper begins. -/
  layerHeight : α
  /-- How much of the loop is travelled twice. -/
  overlap : α
  /-- Runs that end nearer to their start than this are loops. -/
  loopTolerance : α
  /-- The longest step inside a taper. -/
  taperResolution : α
deriving Repr, DecidableEq

namespace Tuning

/-- Why a tuning is not usable. -/
inductive Fault (α : Type) where
  /-- A number that is not above its bound. -/
  | outOfRange (name : String) (value bound : α)
  /-- A number that cannot be a length. -/
  | invalidValue (name reason : String)
deriving Repr, DecidableEq

variable {α : Type} [Scalar α]

def Fault.message : Fault α → String
  | .outOfRange name value bound =>
    "Parameter '" ++ name ++ "' out of range: " ++ Scalar.text value ++ " (must be greater than " ++
      Scalar.text bound ++ ")"
  | .invalidValue name reason => "Invalid value for '" ++ name ++ "': " ++ reason

/-- The tuning that holds where nothing else is said. -/
def standard : Tuning α where
  layerHeight := Scalar.ofPlaces 2 1
  overlap := 2
  loopTolerance := Scalar.ofPlaces 1 1
  taperResolution := Scalar.ofPlaces 5 1

/-- The lengths under the names by which settings call them, in the order in
    which they are checked. -/
def entries (t : Tuning α) : List (String × α) :=
  [("layer_height", t.layerHeight), ("overlap", t.overlap), ("loop_tolerance", t.loopTolerance),
    ("taper_resolution", t.taperResolution)]

/-- What is wrong with a length: it must be finite and above zero. -/
def objection? (name : String) (value : α) : Option (Fault α) :=
  if !Scalar.isFinite value then
    some (.invalidValue name (Scalar.text value ++ " is not a finite number"))
  else if value ≤ 0 then some (.outOfRange name value 0)
  else none

/-- Admits a tuning or gives what is wrong with its first bad length. -/
def check (t : Tuning α) : Except (Fault α) Unit :=
  match t.entries.findSome? fun (name, value) => objection? name value with
  | some fault => .error fault
  | none => .ok ()

end Tuning

end Seam
