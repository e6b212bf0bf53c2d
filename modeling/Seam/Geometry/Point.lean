import Seam.Number.Scalar

/-!
Points in space. A coordinate that is infinite is not known: the machine has
not established that axis yet, or has lost it. The mark travels through
ordinary arithmetic, so whatever is computed from an unknown coordinate is no
finite number either.
-/
namespace Seam

/-- The axes along which the head moves. -/
inductive Axis where
  | x | y | z
deriving Repr, DecidableEq

namespace Axis

/-- The axes in the order in which words name them. -/
def all : List Axis := [.x, .y, .z]

/-- The letter of the words that name the axis. -/
def letter : Axis → Char
  | .x => 'X'
  | .y => 'Y'
  | .z => 'Z'

def ofLetter? : Char → Option Axis
  | 'X' => some .x
  | 'Y' => some .y
  | 'Z' => some .z
  | _ => none

end Axis

/-- A position in space, or a displacement. -/
structure Point (α : Type) where
  x : α
  y : α
  z : α
deriving Repr, DecidableEq

namespace Point

variable {α : Type}

def get (p : Point α) : Axis → α
  | .x => p.x
  | .y => p.y
  | .z => p.z

/-- The point with the given coordinate on every axis. -/
def ofFn (f : Axis → α) : Point α := ⟨f .x, f .y, f .z⟩

@[simp] theorem get_ofFn (f : Axis → α) (axis : Axis) : (ofFn f).get axis = f axis := by cases axis <;> rfl

def set (p : Point α) (axis : Axis) (value : α) : Point α :=
  match axis with
  | .x => { p with x := value }
  | .y => { p with y := value }
  | .z => { p with z := value }

theorem ext_get {p q : Point α} (same : ∀ axis, p.get axis = q.get axis) : p = q := by
  cases p; cases q
  have := same .x; have := same .y; have := same .z
  simp_all [get]

variable [Scalar α]

/-- The point from which coordinates are counted. -/
def origin : Point α := ⟨0, 0, 0⟩

/-- The point none of whose coordinates is known. -/
def unknown : Point α := ⟨Scalar.infinity, Scalar.infinity, Scalar.infinity⟩

def isKnown (p : Point α) : Bool := Scalar.isFinite p.x && Scalar.isFinite p.y && Scalar.isFinite p.z

instance : Add (Point α) := ⟨fun p q => ⟨p.x + q.x, p.y + q.y, p.z + q.z⟩⟩
instance : Sub (Point α) := ⟨fun p q => ⟨p.x - q.x, p.y - q.y, p.z - q.z⟩⟩

/-- The displacement multiplied by a factor. -/
def scale (p : Point α) (factor : α) : Point α := ⟨p.x * factor, p.y * factor, p.z * factor⟩

/-- The length of the straight line between two points. -/
def distance (p q : Point α) : α :=
  let dx := p.x - q.x
  let dy := p.y - q.y
  let dz := p.z - q.z
  Scalar.sqrt (dx * dx + dy * dy + dz * dz)

/-- The point at the fraction `t` of the way from `p` to `q`. -/
def along (p q : Point α) (t : α) : Point α := p + (q - p).scale t

/-- The text of a point: its coordinates with three places. -/
def text (p : Point α) : String :=
  "(" ++ Scalar.fixed 3 p.x ++ ", " ++ Scalar.fixed 3 p.y ++ ", " ++ Scalar.fixed 3 p.z ++ ")"

end Point

end Seam
