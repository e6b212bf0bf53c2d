import Seam.Settings.Config

/-!
Command lines: the options, the values they take, the settings that they take the place
of, and what is told when a command line is not carried out. Options with a value take it
from behind an equals sign, from the rest of a cluster of short options, or from the next
argument. Such a next argument is only looked at when the argument after it is understood,
or at the end, so of two faults the later one may be told.
-/
namespace Seam.CommandLine

/-- Why a command line is not carried out. -/
inductive Fault where
  /-- An option that does not exist, or an argument too many. -/
  | unknownArgument
  /-- A value that cannot be read. -/
  | valueValidation
  /-- A value that is missing or empty. -/
  | invalidValue
  /-- No input is named. -/
  | missingRequiredArgument
  /-- An option given twice. -/
  | argumentConflict
  /-- A value for an option that takes none. -/
  | tooManyValues
  | displayHelp
  | displayVersion
deriving Repr, DecidableEq

/-- What a value is given for. -/
inductive Slot where
  | input
  | output
  | config
  | layerHeight
  | overlap
  | loopTolerance
  | taperResolution
  | lineEnding
deriving Repr, DecidableEq

/-- An option without a value. -/
inductive Flag where
  | noMarkers
  | help
  | version
deriving Repr, DecidableEq

/-- An option: with a value or without. -/
inductive Switch where
  | valued (slot : Slot)
  | flag (flag : Flag)
deriving Repr, DecidableEq

def Switch.ofLong? : String → Option Switch
  | "output" => some (.valued .output)
  | "config" => some (.valued .config)
  | "layer-height" => some (.valued .layerHeight)
  | "overlap" => some (.valued .overlap)
  | "loop-tolerance" => some (.valued .loopTolerance)
  | "taper-resolution" => some (.valued .taperResolution)
  | "line-ending" => some (.valued .lineEnding)
  | "no-markers" => some (.flag .noMarkers)
  | "help" => some (.flag .help)
  | "version" => some (.flag .version)
  | _ => none

def Switch.ofShort? : Char → Option Switch
  | 'o' => some (.valued .output)
  | 'c' => some (.valued .config)
  | 'h' => some (.flag .help)
  | 'V' => some (.flag .version)
  | _ => none

/-- What a command line says; what it does not say is left open. -/
structure Options (α : Type) where
  input : Option String
  output : Option String
  config : Option String
  layerHeight : Option α
  overlap : Option α
  loopTolerance : Option α
  taperResolution : Option α
  noMarkers : Bool
  lineEnding : Option LineEndingSetting
deriving Repr, DecidableEq

namespace Options

variable {α : Type} [Scalar α]

/-- A command line that says nothing. -/
def none : Options α where
  input := .none
  output := .none
  config := .none
  layerHeight := .none
  overlap := .none
  loopTolerance := .none
  taperResolution := .none
  noMarkers := false
  lineEnding := .none

/-- A value for what has none yet. -/
def fill {β : Type} (old : Option β) (value : Except Fault β) : Except Fault (Option β) :=
  if old.isSome then .error .argumentConflict else value.map some

def path (value : String) : Except Fault String :=
  if value.isEmpty then .error .invalidValue else .ok value

def number (value : String) : Except Fault α :=
  match Scalar.read? value.toList with
  | some x => .ok x
  | .none => .error .valueValidation

/-- A word for a line ending. -/
def lineEndingOf (value : String) : Except Fault LineEndingSetting :=
  (LineEndingSetting.parse value).mapError fun _ => .valueValidation

/-- The command line with one more value. -/
def assign (o : Options α) (value : String) : Slot → Except Fault (Options α)
  | .input => return { o with input := ← fill o.input (path value) }
  | .output => return { o with output := ← fill o.output (path value) }
  | .config => return { o with config := ← fill o.config (path value) }
  | .layerHeight => return { o with layerHeight := ← fill o.layerHeight (number value) }
  | .overlap => return { o with overlap := ← fill o.overlap (number value) }
  | .loopTolerance => return { o with loopTolerance := ← fill o.loopTolerance (number value) }
  | .taperResolution => return { o with taperResolution := ← fill o.taperResolution (number value) }
  | .lineEnding => return { o with lineEnding := ← fill o.lineEnding (lineEndingOf value) }

/-- The command line with one more option without a value. -/
def raise (o : Options α) : Flag → Except Fault (Options α)
  | .noMarkers => if o.noMarkers then .error .argumentConflict else .ok { o with noMarkers := true }
  | .help => .error .displayHelp
  | .version => .error .displayVersion

/-- The settings with what the command line says in place of what they say. -/
def override (o : Options α) (config : Config α) : Config α where
  tuning :=
    { layerHeight := o.layerHeight.getD config.tuning.layerHeight
      overlap := o.overlap.getD config.tuning.overlap
      loopTolerance := o.loopTolerance.getD config.tuning.loopTolerance
      taperResolution := o.taperResolution.getD config.tuning.taperResolution }
  output :=
    { lineEnding := o.lineEnding.getD config.output.lineEnding
      markers := !o.noMarkers && config.output.markers }

end Options

/-- A command line while it is read. -/
structure Reading (α : Type) where
  options : Options α
  /-- A value that was not looked at yet, or an option that waits for its value. -/
  pending : Option (Slot × Option String)
  /-- Is the argument that names the input there? -/
  inputSeen : Bool
  /-- Are all further arguments taken as they are? -/
  verbatim : Bool

namespace Reading

variable {α : Type} [Scalar α]

def start : Reading α := ⟨Options.none, none, false, false⟩

/-- Looks at the value that was left. -/
def settle (r : Reading α) : Except Fault (Reading α) :=
  match r.pending with
  | none => .ok r
  | some (_, none) => .error .invalidValue
  | some (slot, some value) => return { r with options := ← r.options.assign value slot, pending := none }

/-- An option without a value. -/
def takeFlag (r : Reading α) (flag : Flag) : Except Fault (Reading α) := do
  let r ← r.settle
  return { r with options := ← r.options.raise flag }

/-- An option that takes a value, and the value if it is attached to it. -/
def takeValued (r : Reading α) (slot : Slot) : Option String → Except Fault (Reading α)
  | some value => do
    let r ← r.settle
    return { r with options := ← r.options.assign value slot }
  | none => do
    let r ← r.settle
    return { r with pending := some (slot, none) }

/-- An argument behind two dashes: a name, and a value behind an equals sign. -/
def takeLong (r : Reading α) (cs : List Char) : Except Fault (Reading α) :=
  let (name, attached) := Text.cutAt '=' cs
  match Switch.ofLong? (String.ofList name) with
  | none => .error .unknownArgument
  | some (.valued slot) => r.takeValued slot (attached.map String.ofList)
  | some (.flag flag) => if attached.isSome then .error .tooManyValues else r.takeFlag flag

/-- The letters behind a dash; what follows a letter that takes a value is the
    value, with or without an equals sign. -/
def takeCluster (r : Reading α) : List Char → Except Fault (Reading α)
  | [] => .ok r
  | letter :: rest =>
    match Switch.ofShort? letter with
    | none => .error .unknownArgument
    | some (.flag flag) => do takeCluster (← r.takeFlag flag) rest
    | some (.valued slot) =>
      match rest with
      | [] => r.takeValued slot none
      | '=' :: value => r.takeValued slot (some (String.ofList value))
      | value => r.takeValued slot (some (String.ofList value))

/-- An argument that is no option. -/
def takeInput (r : Reading α) (arg : String) : Except Fault (Reading α) :=
  if r.inputSeen then .error .unknownArgument
  else do
    let r ← r.settle
    return { r with pending := some (.input, some arg), inputSeen := true }

def take (r : Reading α) (arg : String) : Except Fault (Reading α) :=
  if r.verbatim then r.takeInput arg
  else
    match arg.toList with
    | ['-', '-'] => .ok { r with verbatim := true }
    | '-' :: '-' :: name => r.takeLong name
    | '-' :: letter :: letters => r.takeCluster (letter :: letters)
    | _ =>
      match r.pending with
      | some (slot, none) => .ok { r with pending := some (slot, some arg) }
      | _ => r.takeInput arg

/-- The end of the command line, which must have named an input. -/
def finish (r : Reading α) : Except Fault (Options α × String) := do
  let r ← r.settle
  match r.options.input with
  | none => .error .missingRequiredArgument
  | some input => return (r.options, input)

end Reading

variable {α : Type} [Scalar α]

/-- What a command line says, and the input that it names. -/
def parse (args : List String) : Except Fault (Options α × String) := do
  (← args.foldlM Reading.take Reading.start).finish

/-- How the program is called. -/
def help : String := "\n".intercalate [
  "Hides the Z seam of FDM G-code by scarfing closed extrusion loops with a tapered overlap",
  "",
  "Usage: gcodescarf [OPTIONS] <INPUT>",
  "",
  "Arguments:",
  "  <INPUT>  Input G-code file",
  "",
  "Options:",
  "  -o, --output <OUTPUT>",
  "          Output file; the rewritten program goes to stdout when omitted",
  "  -c, --config <CONFIG>",
  "          Settings file (.json or .toml); the platform default is used when omitted",
  "      --layer-height <LAYER_HEIGHT>",
  "          Height the starting taper ramps down from (mm)",
  "      --overlap <OVERLAP>",
  "          Length of the tapered overlap (mm)",
  "      --loop-tolerance <LOOP_TOLERANCE>",
  "          Largest end-to-start gap still treated as a closed loop (mm)",
  "      --taper-resolution <TAPER_RESOLUTION>",
  "          Longest step inside a taper (mm)",
  "      --no-markers",
  "          Do not bracket scarfed loops with marker comments",
  "      --line-ending <LINE_ENDING>",
  "          Line ending of the output: auto, lf or crlf",
  "  -h, --help",
  "          Print help",
  "  -V, --version",
  "          Print version"]

/-- The name of the program and its version. -/
def version : String := "gcodescarf 0.4.0"

/-- Does the command line only ask for a text? -/
def Fault.isQuestion : Fault → Bool
  | .displayHelp | .displayVersion => true
  | _ => false

/-- The text that is asked for, or the sentence that tells the cause. -/
def Fault.message : Fault → String
  | .displayHelp => help
  | .displayVersion => version
  | .unknownArgument => "unexpected argument"
  | .valueValidation => "invalid value"
  | .invalidValue => "a value is required"
  | .missingRequiredArgument => "the input is not provided"
  | .argumentConflict => "an argument cannot be used multiple times"
  | .tooManyValues => "unexpected value"

end Seam.CommandLine
