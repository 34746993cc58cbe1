/-
The command line.

The file is read here and what the command prints is printed here; everything in between is a
function of the text of the file.
-/
import Interlock.Command.Arguments
import Interlock.Command.Basic

namespace Interlock.Command

/-- The text of a file, or why there is none. -/
def fileText (file : String) : IO (Except Command.Fault String) := do
  try
    return .ok (← IO.FS.readFile file)
  catch
    | .noFileOrDirectory .. => return .error .noFile
    | error => return .error (.unreadable (toString error))

end Interlock.Command

open Interlock

/-- Runs the command that the arguments ask for. -/
def main (arguments : List String) : IO UInt32 := do
  match Command.Invocation.parse? arguments with
  | none =>
    (← IO.getStderr).putStr Command.usage
    return 2
  | some invocation =>
    let outcome := Command.run invocation.command (← Command.fileText invocation.file)
    let transcript := outcome.transcript invocation.asJson
    (← IO.getStdout).putStr transcript.output
    (← IO.getStderr).putStr transcript.errors
    return transcript.status.toUInt32
