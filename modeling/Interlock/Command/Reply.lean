/-
Replies: what a command has to say, for people and for programs.

People read the message; programs read the value, whose keys are in order.
-/
import Interlock.Text.Json

namespace Interlock

/-- What a command has to say. -/
structure Reply where
  value : Json
  /-- The same in words; a command may have none. -/
  message : Option String

/-- The text of a reply. -/
def Reply.text? (reply : Reply) (asJson : Bool) : Option String :=
  if asJson then some reply.value.sorted.pretty else reply.message

end Interlock
