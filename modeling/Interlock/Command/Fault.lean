/-
Why a command fails.
-/
import Interlock.Blueprint.Fault
import Interlock.Setting

namespace Interlock

/-- The commands on a design that is written in a file. -/
inductive Command where
  /-- Says how the design is scheduled. -/
  | report
  /-- Draws what conflicts and what is preferred. -/
  | graph
  /-- Tries all assignments of the inputs of one bit. -/
  | check
  /-- Evaluates one cycle under some settings. -/
  | simulate (settings : List String)
  deriving DecidableEq, Repr

/-- Why a command fails. -/
inductive Command.Fault where
  | noFile
  /-- The file cannot be read. -/
  | unreadable (reason : String)
  /-- The file holds no blueprint. -/
  | illFormed
  | blueprint (fault : Blueprint.Fault)
  /-- A setting cannot be used. -/
  | setting (fault : Setting.Fault)
  /-- The finished design cannot be evaluated as asked. -/
  | evaluation (fault : Interlock.Fault)
  /-- The schedule breaks promises. -/
  | breaches (count : Nat)
  deriving DecidableEq, Repr

/-- What went wrong. -/
def Command.Fault.message : Command.Fault → String
  | noFile => "IO error: No such file or directory (os error 2)"
  | unreadable reason => "IO error: " ++ reason
  | illFormed => "TOML error: not a design"
  | blueprint fault => fault.message
  | setting fault => "Invalid input: " ++ fault.message
  | evaluation fault => Blueprint.Fault.declarationMessage fault
  | breaches count => toString count ++ " violations found"

end Interlock
