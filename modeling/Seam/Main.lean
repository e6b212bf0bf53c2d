import Seam.CommandLine
import Seam.Job
import Seam.Number.Binary64

/-!
The program itself: its command line, the files of the machine that it runs on,
and what it tells about failures.
-/
namespace Seam

/-- Does an action come to its end? -/
def succeeds (action : IO Unit) : IO Bool := do
  try
    action
    return true
  catch _ => return false

/-- The files of the machine. -/
instance : Files IO where
  read? path := do
    try return some (← IO.FS.readFile path)
    catch _ => return none
  write path text := succeeds (IO.FS.writeFile path text)
  createDirectories path := succeeds (IO.FS.createDirAll path)
  isFile path := do
    try return (← (← IO.FS.realPath path).metadata).type == .file
    catch _ => return false
  print text := succeeds do
    let out ← IO.getStdout
    out.putStr text
    out.flush

/-- The directory where a user's settings are kept. -/
def settingsDirectory? : IO (Option String) := do
  match ← IO.getEnv "XDG_CONFIG_HOME" with
  | some directory => if Path.isAbsolute directory then return some directory
  | none => pure ()
  return (← IO.getEnv "HOME").map (· ++ "/.config")

end Seam

open Seam in
/-- Runs the program on the arguments of its command line. -/
def main (args : List String) : IO UInt32 := do
  match (CommandLine.parse args : Except CommandLine.Fault (CommandLine.Options Float × String)) with
  | .error fault =>
    if fault.isQuestion then
      IO.println fault.message
      return 0
    else
      IO.eprintln ("error: " ++ fault.message)
      return 2
  | .ok (options, input) =>
    let job : ExceptT (Job.Fault Float) IO (Report Float) := Job.run (← settingsDirectory?) options input
    match ← job.run with
    | .ok _ => return 0
    | .error fault =>
      IO.eprintln ("Error: " ++ fault.message)
      return 1
