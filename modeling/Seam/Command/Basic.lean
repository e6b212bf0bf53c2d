import Seam.Number.Scalar
import Seam.Geometry.Point
import Seam.Text

/-!
The lines of a program, and why a program cannot be rewritten. A line is a tracked
instruction, a comment that fills it, or anything else, which is kept as it stands, so
that its words are never misread. The words of an instruction are letters with numbers,
in the order in which the letters were first written. A letter that is written again
takes its new number where it stands.
-/
namespace Seam

/-- A tracked instruction. -/
inductive Code where
  /-- A rapid move, `G0`. -/
  | rapidMove
  /-- A move along a straight line, `G1`. -/
  | linearMove
  /-- A clockwise arc, `G2`. -/
  | clockwiseArc
  /-- A counter-clockwise arc, `G3`. -/
  | counterclockwiseArc
  /-- Axes driven to their home, `G28`. -/
  | home
  /-- Coordinates are positions from here on, `G90`. -/
  | absolutePositioning
  /-- Coordinates are displacements from here on, `G91`. -/
  | relativePositioning
  /-- The current position is declared, `G92`. -/
  | setPosition
  /-- The current position is declared to be the origin, `G92.1`. -/
  | resetPosition
  /-- Extrusion is given as a total from here on, `M82`. -/
  | absoluteExtrusion
  /-- Extrusion is given as an amount from here on, `M83`. -/
  | relativeExtrusion
deriving Repr, DecidableEq

namespace Code

/-- A whole number of digits alone that fits into 32 bits. -/
def readNumber? (cs : List Char) : Option Nat :=
  if cs.isEmpty || !cs.all Char.isDigit || Nat.pow 2 32 ≤ Decimal.ofDigits cs then none
  else some (Decimal.ofDigits cs)

/-- The tracked instruction with a letter, a number and a number behind the point. -/
def ofNumbers? : Char → Nat → Option Nat → Option Code
  | 'G', 0, none => some .rapidMove
  | 'G', 1, none => some .linearMove
  | 'G', 2, none => some .clockwiseArc
  | 'G', 3, none => some .counterclockwiseArc
  | 'G', 28, none => some .home
  | 'G', 90, none => some .absolutePositioning
  | 'G', 91, none => some .relativePositioning
  | 'G', 92, none => some .setPosition
  | 'G', 92, some 1 => some .resetPosition
  | 'M', 82, none => some .absoluteExtrusion
  | 'M', 83, none => some .relativeExtrusion
  | _, _, _ => none

/-- The tracked instruction that a token names, a letter in either case and
    numbers with any zeros in front. -/
def ofToken? : List Char → Option Code
  | [] => none
  | letter :: number => do
    let major ← readNumber? (number.takeWhile (· != '.'))
    let minor ← match number.dropWhile (· != '.') with
      | [] => some none
      | _ :: places => (readNumber? places).map some
    ofNumbers? letter.toUpper major minor

/-- The canonical name of an instruction. -/
def name : Code → String
  | .rapidMove => "G0"
  | .linearMove => "G1"
  | .clockwiseArc => "G2"
  | .counterclockwiseArc => "G3"
  | .home => "G28"
  | .absolutePositioning => "G90"
  | .relativePositioning => "G91"
  | .setPosition => "G92"
  | .resetPosition => "G92.1"
  | .absoluteExtrusion => "M82"
  | .relativeExtrusion => "M83"

def isLinear : Code → Bool
  | .rapidMove | .linearMove => true
  | _ => false

def isArc : Code → Bool
  | .clockwiseArc | .counterclockwiseArc => true
  | _ => false

def isMotion (c : Code) : Bool := c.isLinear || c.isArc

/-- Instructions that change what coordinates mean. -/
def altersFrame : Code → Bool
  | .home | .absolutePositioning | .relativePositioning | .setPosition | .resetPosition => true
  | _ => false

theorem ofToken?_name (c : Code) : ofToken? c.name.toList = some c := by
  cases c <;> decide +kernel

end Code

/-- Letters in upper case with their numbers, each letter once. -/
structure Words (α : Type) where
  entries : List (Char × α)
deriving Repr, DecidableEq

namespace Words

variable {α : Type}

def empty : Words α := ⟨[]⟩

/-- Replaces the number of a letter where it stands, or adds both at the end. -/
def put (letter : Char) (value : α) : List (Char × α) → List (Char × α)
  | [] => [(letter, value)]
  | (l, v) :: rest => if l = letter then (l, value) :: rest else (l, v) :: put letter value rest

/-- The words with a number for a letter in either case. -/
def set (w : Words α) (letter : Char) (value : α) : Words α :=
  ⟨put letter.toUpper value w.entries⟩

/-- The number of a letter in either case. -/
def get? (w : Words α) (letter : Char) : Option α := w.entries.lookup letter.toUpper

/-- Is the letter there, in either case? -/
def contains (w : Words α) (letter : Char) : Bool := (w.get? letter).isSome

def axis? (w : Words α) (axis : Axis) : Option α := w.get? axis.letter

/-- Is a number there for any axis? -/
def hasAxis (w : Words α) : Bool := Axis.all.any fun axis => w.contains axis.letter

theorem lookup_put (letter other : Char) (value : α) (entries : List (Char × α)) :
    (put letter value entries).lookup other =
      if other = letter then some value else entries.lookup other := by
  induction entries with
  | nil => by_cases same : other = letter <;> simp [put, List.lookup_cons, same, beq_false_of_ne]
  | cons entry rest ih =>
    obtain ⟨l, v⟩ := entry
    by_cases here : l = letter
    · subst here
      by_cases same : other = l <;> simp [put, List.lookup_cons, same, beq_false_of_ne]
    · by_cases same : other = l
      · subst same; simp [put, here]
      · simp [put, here, List.lookup_cons, same, beq_false_of_ne, ih]

theorem get?_set (w : Words α) (letter other : Char) (value : α) :
    (w.set letter value).get? other = if other.toUpper = letter.toUpper then some value else w.get? other :=
  lookup_put ..

end Words

/-- A defect of a program, or a question about the machine that has no answer. Lines are counted from one. -/
inductive Fault (α : Type) where
  /-- A tracked instruction with a word that is no letter and number. -/
  | invalidSyntax (line : Nat) (reason : String)
  /-- An instruction that saves or restores the position. -/
  | prohibitedCommand (line : Nat) (code : String)
  /-- A declaration of the height at which the head stands. -/
  | positionReset (line : Nat)
  /-- Homing only those axes that are not trusted; line 0 if none is known. -/
  | trustedHoming (line : Nat)
  /-- The physical position while it is unknown. -/
  | unknownPosition
  /-- A lowest height that is no finite number. -/
  | floorUndetermined (value : α)
deriving Repr, DecidableEq

def Fault.message {α : Type} [Scalar α] : Fault α → String
  | .invalidSyntax line reason => s!"Invalid syntax at line {line}: {reason}"
  | .prohibitedCommand line code => s!"Prohibited instruction {code} at line {line}"
  | .positionReset line => s!"Position reset of Z at line {line} is not supported"
  | .trustedHoming line => s!"Homing with trusted-axis semantics at line {line} is not supported"
  | .unknownPosition => "Physical position queried while the machine position is unknown"
  | .floorUndetermined value =>
    "Safety floor could not be determined (computed " ++ Scalar.text value ++ ")"

/-- A tracked instruction with its words and the comment behind them. -/
structure Instruction (α : Type) where
  code : Code
  words : Words α
  comment : Option String
deriving Repr, DecidableEq

/-- A line of a program. -/
inductive Command (α : Type) where
  | instruction (i : Instruction α)
  /-- The text behind the semicolon that starts the line. -/
  | comment (text : String)
  /-- A line that is not understood and not changed. -/
  | verbatim (text : String)
deriving Repr, DecidableEq

namespace Command

variable {α : Type}

def ofWords (code : Code) (words : Words α) : Command α := .instruction ⟨code, words, none⟩

def code? : Command α → Option Code
  | .instruction i => some i.code
  | _ => none

def words? : Command α → Option (Words α)
  | .instruction i => some i.words
  | _ => none

/-- Does the line move the head? -/
def isMotion (c : Command α) : Bool := c.code?.any Code.isMotion

/-- Does the line move the head along a straight line? -/
def isLinear (c : Command α) : Bool := c.code?.any Code.isLinear

/-- Does the line change what coordinates mean? -/
def altersFrame (c : Command α) : Bool := c.code?.any Code.altersFrame

/-- The first token of a line that is not understood, in upper case. -/
def leadingToken? : Command α → Option String
  | .verbatim text =>
    (Text.tokens (Text.cutAt ';' text.toList).1).head?.map fun token =>
      String.ofList (token.map Char.toUpper)
  | _ => none

end Command

end Seam
