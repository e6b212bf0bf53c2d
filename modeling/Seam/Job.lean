import Seam.CommandLine
import Seam.Settings.Json
import Seam.Settings.Store
import Seam.Settings.Toml

/-!
A run of the program from its command line to what it writes.
-/
namespace Seam

instance {α : Type} [Scalar α] : Codecs α := ⟨Json.codec, Toml.codec⟩

namespace Job

open CommandLine (Options)

/-- Why a run failed. -/
inductive Fault (α : Type) where
  /-- The settings that the command line names. -/
  | settings (path : String) (fault : Settings.Fault α)
  | userSettings (fault : Settings.Fault α)
  | unreadable (path : String)
  | rejected (path : String) (failure : Failure α)
  | unwritable (path : String)
  | unprintable
deriving Repr, DecidableEq

variable {α : Type} [Scalar α]

/-- What settings are blamed for, each cause behind a colon. Where the format or
    the file is to blame, the purpose alone is told. -/
def chain (purpose : String) (fault : Settings.Fault α) : String :=
  match fault with
  | .invalidSetting cause => purpose ++ ": " ++ fault.message ++ ": " ++ cause.message
  | .inaccessible | .malformedJson | .malformedToml => purpose
  | .unsupportedFormat _ | .noDirectory _ => purpose ++ ": " ++ fault.message

/-- What the run was about to do, and the causes of its failure. -/
def Fault.message : Fault α → String
  | .settings path fault => chain ("Failed to load config " ++ path) fault
  | .userSettings fault => chain "Failed to load default config" fault
  | .unreadable path => "Failed to read " ++ path
  | .rejected path failure => "Failed to scarf " ++ path ++ ": " ++ failure.message
  | .unwritable path => "Failed to write " ++ path
  | .unprintable => "I/O error"

variable {m : Type → Type} [Monad m] [Files m]

/-- The settings of a run: those of the file that the command line names, or the
    user's, with what the command line says itself. -/
def config (directory? : Option String) (options : Options α) : ExceptT (Fault α) m (Config α) := do
  let config ← match options.config with
    | some path => ExceptT.mk ((Except.mapError (Fault.settings path)) <$> (Settings.load path).run)
    | none => ExceptT.mk ((Except.mapError Fault.userSettings) <$> (Settings.loadUser directory?).run)
  return options.override config

/-- Reads the input, rewrites it, and writes or prints the result. The user's
    settings are looked for in the given directory. -/
def run (directory? : Option String) (options : Options α) (input : String) :
    ExceptT (Fault α) m (Report α) := do
  let config ← config directory? options
  match ← (Files.read? input : m (Option String)) with
  | none => throw (.unreadable input)
  | some text =>
    let (result, report) ← ExceptT.mk (pure ((config.rewrite text).mapError (Fault.rejected input)))
    match options.output with
    | some path => if !(← (Files.write path result : m Bool)) then throw (.unwritable path)
    | none => if !(← (Files.print result : m Bool)) then throw .unprintable
    return report

end Job

end Seam
