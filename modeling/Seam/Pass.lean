import Seam.Command.Text
import Seam.Loop.Weave
import Seam.Program
import Seam.Machine

/-!
The pass over a program. It cuts the program into blocks, each a single line or a run
with the verdict on it, and replaces those runs that are loops and can be tapered. The
machine is followed through what is emitted. The account of a pass counts the verdicts and
names the loops that were left alone for a reason worth telling.
-/
namespace Seam

/-- What the pass decides about a run. -/
inductive Verdict (α : Type) where
  /-- The run does not end where it started. -/
  | unclosed
  /-- The loop is no path that can be rewritten. -/
  | rigid
  /-- The loop is shorter than a step of the taper. -/
  | short
  | tapered (commands : List (Command α))
  /-- The loop is kept because of a line in its overlap. -/
  | abandoned (culprit : Command α)
deriving Repr, DecidableEq

/-- A slice of a program. -/
inductive Block (α : Type) where
  /-- A line outside of any run. -/
  | single (c : Command α)
  /-- A run of extrusion that begins on the given line. -/
  | run (line : Nat) (commands : List (Command α)) (verdict : Verdict α)
deriving Repr, DecidableEq

namespace Block

variable {α : Type}

/-- The lines of the program that the block stands for. -/
def source : Block α → List (Command α)
  | .single c => [c]
  | .run _ commands _ => commands

def emitted : Block α → List (Command α)
  | .single c => [c]
  | .run _ _ (.tapered commands) => commands
  | .run _ commands _ => commands

def verdict? : Block α → Option (Verdict α)
  | .single _ => none
  | .run _ _ verdict => some verdict

end Block

/-- A loop that was left alone for a reason worth telling. -/
structure Notice (α : Type) where
  /-- The line on which the loop starts. -/
  line : Nat
  /-- The line's text names why. -/
  culprit : Command α
deriving Repr, DecidableEq

/-- The sentence that tells why the loop was left alone. -/
def Notice.message {α : Type} [Scalar α] (n : Notice α) : String :=
  "coordinate system changed by '" ++ n.culprit.render ++ "' inside the overlap"

def Block.notice? {α : Type} : Block α → Option (Notice α)
  | .run line _ (.abandoned culprit) => some ⟨line, culprit⟩
  | _ => none

/-- What a pass did. -/
structure Report (α : Type) where
  /-- No synthesized move goes below this height. -/
  floor : α
  extrusionRuns : Nat
  closedLoops : Nat
  scarfedLoops : Nat
  skippedLoops : Nat
  notices : List (Notice α)
deriving Repr, DecidableEq

namespace Verdict

variable {α : Type}

def isLoop : Verdict α → Bool
  | .unclosed => false
  | _ => true

def isScarfed : Verdict α → Bool
  | .tapered _ => true
  | _ => false

/-- The loop is left as it was because it cannot be tapered at all. -/
def isSkipped : Verdict α → Bool
  | .rigid | .short => true
  | _ => false

end Verdict

def Report.ofBlocks {α : Type} (floor : α) (blocks : List (Block α)) : Report α :=
  let verdicts := blocks.filterMap Block.verdict?
  { floor
    extrusionRuns := verdicts.length
    closedLoops := verdicts.countP Verdict.isLoop
    scarfedLoops := verdicts.countP Verdict.isScarfed
    skippedLoops := verdicts.countP Verdict.isSkipped
    notices := blocks.filterMap Block.notice? }

/-- Why nothing was written. -/
inductive Failure (α : Type) where
  | program (fault : Fault α)
  | tuning (fault : Tuning.Fault α)
  /-- A cause given in words alone. -/
  | other (text : String)
deriving Repr, DecidableEq

def Failure.message {α : Type} [Scalar α] : Failure α → String
  | .program fault => fault.message
  | .tuning fault => fault.message
  | .other text => text

/-- A program rewritten, with the account of what was done to it. -/
structure Rewritten (α : Type) where
  commands : List (Command α)
  report : Report α
deriving Repr, DecidableEq

/-- How programs are rewritten. -/
structure Pass (α : Type) where
  tuning : Tuning α
  /-- Are tapered loops put between comments? -/
  markers : Bool
deriving Repr, DecidableEq

namespace Pass

variable {α : Type} [Scalar α]

def judge (p : Pass α) (floor : α) (run : Run α) : Except (Fault α) (Verdict α) :=
  if !run.isClosed p.tuning.loopTolerance then .ok .unclosed
  else do
    match ← Segment.path? run.start run.commands with
    | none => return .rigid
    | some segments =>
      if Segment.pathLength segments < p.tuning.taperResolution then return .short
      else
        match ← Weave.weave p.tuning floor p.markers run segments with
        | .tapered commands => return .tapered commands
        | .abandoned culprit => return .abandoned culprit

/-- The block at the front of a program's rest that begins on the given line. -/
def block (p : Pass α) (floor : α) (m : Machine α) (line : Nat) (c : Command α) (rest : List (Command α)) :
    Except (Fault α) (Block α) := do
  if ← m.wouldExtrude c then
    let run ← Run.extract m (c :: rest)
    return .run line run.commands (← p.judge floor run)
  else return .single c

/-- The blocks of a program's rest behind those that are done, the last of them
    first. -/
def walk (p : Pass α) (floor : α) (m : Machine α) (line : Nat) (done : List (Block α)) :
    List (Command α) → Except (Fault α) (List (Block α))
  | [] => .ok done.reverse
  | c :: rest => do
    let b ← p.block floor m line c rest
    let next ← m.replay b.emitted
    walk p floor next (line + b.source.length) (b :: done) (rest.drop (b.source.length - 1))
termination_by commands => commands.length
decreasing_by simp only [List.length_drop, List.length_cons]; omega

def blocks (p : Pass α) (floor : α) (commands : List (Command α)) : Except (Fault α) (List (Block α)) :=
  p.walk floor Machine.powerOn 1 [] commands

/-- Rewrites a program. Nothing is written if the tuning is not usable or the
    program is not admitted. -/
def rewrite (p : Pass α) (commands : List (Command α)) : Except (Failure α) (Rewritten α) := do
  p.tuning.check.mapError .tuning
  (Admission.check commands).mapError .program
  let floor ← (Floor.ofCommands commands).mapError .program
  let blocks ← (p.blocks floor commands).mapError .program
  return ⟨blocks.flatMap Block.emitted, Report.ofBlocks floor blocks⟩

/-- Rewrites the text of a program. The terminator between the lines is what
    `ending` makes of the one that was found. -/
def rewriteText (p : Pass α) (ending : LineEnding → LineEnding) (text : String) :
    Except (Failure α) (String × Report α) := do
  let program ← (Program.parse text).mapError .program
  let rewritten ← p.rewrite program.commands
  let shaped := { program with lineEnding := ending program.lineEnding }
  return (shaped.renderCommands rewritten.commands, rewritten.report)

end Pass

end Seam
