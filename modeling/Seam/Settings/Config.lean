import Seam.Tuning
import Seam.Program
import Seam.Pass
import Seam.Settings.Document

/-!
The settings of the program: how loops are tapered and how the result is
written out. Every setting has a standard, so a file names only what it
changes.
-/
namespace Seam

/-- Which terminator the lines of the result have. -/
inductive LineEndingSetting where
  /-- The one found in the input. -/
  | auto
  | lf
  | crlf
deriving Repr, DecidableEq

namespace LineEndingSetting

def name : LineEndingSetting → String
  | .auto => "auto"
  | .lf => "lf"
  | .crlf => "crlf"

/-- The setting that a word stands for. -/
def ofName? : String → Option LineEndingSetting
  | "auto" => some .auto
  | "lf" => some .lf
  | "crlf" => some .crlf
  | _ => none

/-- The setting that a word in either case stands for, or what is wrong with
    the word. -/
def parse (word : String) : Except String LineEndingSetting :=
  let lowered := String.ofList (word.toList.map Char.toLower)
  match ofName? lowered with
  | some setting => .ok setting
  | none => .error ("unknown line ending '" ++ lowered ++ "' (expected auto, lf or crlf)")

/-- The terminator to write where one was found. -/
def resolve (setting : LineEndingSetting) (detected : LineEnding) : LineEnding :=
  match setting with
  | .auto => detected
  | .lf => .lf
  | .crlf => .crlf

theorem ofName?_name (setting : LineEndingSetting) : ofName? setting.name = some setting := by
  cases setting <;> rfl

end LineEndingSetting

/-- How the result is written out. -/
structure Output where
  lineEnding : LineEndingSetting
  /-- Are tapered loops put between comments? -/
  markers : Bool
deriving Repr, DecidableEq

/-- The output that holds where nothing else is said. -/
def Output.standard : Output := ⟨.auto, true⟩

structure Config (α : Type) where
  tuning : Tuning α
  output : Output
deriving Repr, DecidableEq

namespace Config

variable {α : Type} [Scalar α]

/-- The settings that hold where nothing else is said. -/
def standard : Config α := ⟨Tuning.standard, Output.standard⟩

/-- Rewrites the text of a program as the settings say. -/
def rewrite (config : Config α) (text : String) : Except (Failure α) (String × Report α) :=
  Pass.rewriteText ⟨config.tuning, config.output.markers⟩ config.output.lineEnding.resolve text

def tuningDocument (t : Tuning α) : Document α :=
  .table (t.entries.map fun (name, value) => (name, .number value))

def outputDocument (o : Output) : Document α :=
  .table [("line_ending", .text o.lineEnding.name), ("emit_markers", .truth o.markers)]

def toDocument (config : Config α) : Document α :=
  .table [("scarf", tuningDocument config.tuning), ("output", outputDocument config.output)]

def readTuning? (dialect : Document.Dialect α) (d : Document α) : Option (Tuning α) := do
  let standard : Tuning α := Tuning.standard
  match ← d.fields? dialect ["layer_height", "overlap", "loop_tolerance", "taper_resolution"] with
  | [layerHeight, overlap, loopTolerance, taperResolution] =>
    return {
      layerHeight := ← Document.fieldD Document.number? standard.layerHeight layerHeight
      overlap := ← Document.fieldD Document.number? standard.overlap overlap
      loopTolerance := ← Document.fieldD Document.number? standard.loopTolerance loopTolerance
      taperResolution := ← Document.fieldD Document.number? standard.taperResolution taperResolution }
  | _ => none

def readOutput? (dialect : Document.Dialect α) (d : Document α) : Option Output := do
  match ← d.fields? dialect ["line_ending", "emit_markers"] with
  | [lineEnding, markers] =>
    let choice? (d : Document α) : Option LineEndingSetting := do
      LineEndingSetting.ofName? (← d.choice? dialect)
    return {
      lineEnding := ← Document.fieldD choice? Output.standard.lineEnding lineEnding
      markers := ← Document.fieldD Document.truth? Output.standard.markers markers }
  | _ => none

def ofDocument? (dialect : Document.Dialect α) (d : Document α) : Option (Config α) := do
  match ← d.fields? dialect ["scarf", "output"] with
  | [tuning, output] =>
    return {
      tuning := ← Document.fieldD (readTuning? dialect) Tuning.standard tuning
      output := ← Document.fieldD (readOutput? dialect) Output.standard output }
  | _ => none

end Config

end Seam
