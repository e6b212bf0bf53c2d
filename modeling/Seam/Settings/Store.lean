import Seam.Settings.Config
import Seam.Files.Disk

/-!
Reading settings from files and writing them to files. The end of a file's name
tells which of two formats it is in, and each format has its codec. Settings that
are not usable are neither read nor written.
-/
namespace Seam.Settings

/-- A reason to refuse settings, or to fail to read or write them. -/
inductive Fault (α : Type) where
  /-- The name of the file tells no format; what it tells instead. -/
  | unsupportedFormat (extension : String)
  | invalidSetting (fault : Tuning.Fault α)
  /-- There is no directory for settings. -/
  | noDirectory (reason : String)
  | inaccessible
  | malformedJson
  | malformedToml
deriving Repr, DecidableEq

def Fault.message {α : Type} [Scalar α] : Fault α → String
  | .unsupportedFormat extension => "Unsupported config format: " ++ extension
  | .invalidSetting fault => "Invalid setting: " ++ fault.message
  | .noDirectory reason => "Config directory error: " ++ reason
  | .inaccessible => "I/O error"
  | .malformedJson => "JSON error"
  | .malformedToml => "TOML error"

inductive Format where
  | json
  | toml
deriving Repr, DecidableEq

namespace Format

variable {α : Type}

/-- The format that the name of a file tells. -/
def ofPath (path : String) : Except (Fault α) Format :=
  match Path.extension? path with
  | some "json" => .ok .json
  | some "toml" => .ok .toml
  | some extension => .error (.unsupportedFormat extension)
  | none => .error (.unsupportedFormat "<none>")

/-- What is blamed where a text gives no settings, or settings no text. -/
def fault : Format → Fault α
  | .json => .malformedJson
  | .toml => .malformedToml

variable [Codecs α]

def codec : Format → Codec α
  | .json => Codecs.json
  | .toml => Codecs.toml

variable [Scalar α]

/-- The settings that a text gives. -/
def read (format : Format) (text : String) : Except (Fault α) (Config α) :=
  match format.codec.read? text >>= Config.ofDocument? format.codec.dialect with
  | some config => .ok config
  | none => .error format.fault

/-- The text that settings give. -/
def write (format : Format) (config : Config α) : Except (Fault α) String :=
  match format.codec.write? config.toDocument with
  | some text => .ok text
  | none => .error format.fault

end Format

variable {α : Type} [Scalar α]

/-- Admits settings or gives what is wrong with their tuning. -/
def check (config : Config α) : Except (Fault α) Unit := config.tuning.check.mapError .invalidSetting

variable [Codecs α] {m : Type → Type} [Monad m] [Files m]

/-- The settings in a file. -/
def load (path : String) : ExceptT (Fault α) m (Config α) := do
  let format ← ExceptT.mk (pure (Format.ofPath path))
  match ← (Files.read? path : m (Option String)) with
  | none => throw .inaccessible
  | some text =>
    let config ← ExceptT.mk (pure (format.read text))
    ExceptT.mk (pure (check config))
    return config

/-- Writes settings to a file, and makes the directories above it. -/
def save (config : Config α) (path : String) : ExceptT (Fault α) m Unit := do
  ExceptT.mk (pure (check config))
  let format ← ExceptT.mk (pure (Format.ofPath path))
  let text ← ExceptT.mk (pure (format.write config))
  if let some parent := Path.parent? path then
    if !(← (Files.createDirectories parent : m Bool)) then throw .inaccessible
  if !(← (Files.write path text : m Bool)) then throw .inaccessible

/-- The path of a user's settings in the directory where settings are kept. -/
def userPath (directory : String) : String := directory ++ "/gcodescarf/config.toml"

/-- A user's settings: those of the file if there is one. -/
def loadUser (directory? : Option String) : ExceptT (Fault α) m (Config α) := do
  match directory? with
  | none => return Config.standard
  | some directory =>
    if ← (Files.isFile (userPath directory) : m Bool) then load (userPath directory)
    else return Config.standard

end Seam.Settings
