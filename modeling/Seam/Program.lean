import Seam.Command.Text
import Seam.Command.Basic

/-!
Whole programs: one command for every line, the terminator found between the
lines, and whether the last line has one, so that a program can be written back
in the shape in which it came. Not every program is admitted: saving and
restoring the position would jump across a rewritten loop, a declared height
would move the floor, and homing only untrusted axes cannot be followed.
-/
namespace Seam

inductive LineEnding where
  | lf
  | crlf
deriving Repr, DecidableEq

namespace LineEnding

def text : LineEnding → String
  | .lf => "\n"
  | .crlf => "\r\n"

/-- A carriage return before any newline decides for both. -/
def detect (text : String) : LineEnding := if Text.hasCrlf text.toList then .crlf else .lf

end LineEnding

/-- A program: the command at position `i` stands on line `i + 1`. -/
structure Program (α : Type) where
  commands : List (Command α)
  lineEnding : LineEnding
  endsWithNewline : Bool
deriving Repr, DecidableEq

namespace Program

variable {α : Type} [Scalar α]

/-- The lines of a text without their terminators. A newline at the end opens
    no further line. -/
def linesOf (text : String) : List (List Char) :=
  (Text.splitOn '\n' (Text.dropLast? '\n' text.toList)).map (Text.dropLast? '\r')

/-- Reads a program. The first line that cannot be read is the error. -/
def parse (text : String) : Except (Fault α) (Program α) := do
  let commands ← ((linesOf text).zipIdx 1).mapM fun (cs, line) => Command.readLine line cs
  return ⟨commands, LineEnding.detect text, text.toList.getLast? == some '\n'⟩

/-- Writes commands in the shape of this program. -/
def renderCommands (p : Program α) (commands : List (Command α)) : String :=
  p.lineEnding.text.intercalate (commands.map Command.render) ++
    if p.endsWithNewline then p.lineEnding.text else ""

def render (p : Program α) : String := p.renderCommands p.commands

end Program

end Seam

namespace Seam.Admission

variable {α : Type}

/-- Instructions that save or restore the position. -/
def prohibited : List String := ["G60", "G61"]

/-- The reason, if there is one, why the line of the given number must not
    stand in a program. -/
def objection? (line : Nat) (c : Command α) : Option (Fault α) :=
  match c.leadingToken? with
  | some token => if token ∈ prohibited then some (.prohibitedCommand line token) else none
  | none =>
    match c with
    | .instruction ⟨.setPosition, words, _⟩ =>
      if words.contains 'Z' then some (.positionReset line) else none
    | .instruction ⟨.resetPosition, _, _⟩ => some (.positionReset line)
    | .instruction ⟨.home, words, _⟩ =>
      if words.contains 'O' then some (.trustedHoming line) else none
    | _ => none

/-- Admits a line or gives the objection to it. -/
def checkLine (line : Nat) (c : Command α) : Except (Fault α) Unit :=
  match objection? line c with
  | some fault => .error fault
  | none => .ok ()

/-- Admits a program or gives the objection to its first prohibited line. -/
def check (commands : List (Command α)) : Except (Fault α) Unit :=
  match (commands.zipIdx 1).findSome? fun (c, line) => objection? line c with
  | some fault => .error fault
  | none => .ok ()

end Seam.Admission
