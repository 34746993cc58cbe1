/-
Warnings: what is odd about a plan without being wrong.
-/
import Interlock.Ascending

namespace Interlock

/-- A remark on a declared pair of actions, given by their names. -/
inductive Warning where
  /-- The two actions belong to different outermost blocks. -/
  | crossBlock (start finish startBlock finishBlock : String)
  /-- The pair cannot influence the schedule. -/
  | ineffective (start finish reason : String)
  deriving DecidableEq, Repr

namespace Warning

/-- The text of a warning. -/
def message : Warning → String
  | crossBlock start finish startBlock finishBlock =>
    "relation between '" ++ start ++ "' (" ++ startBlock ++ ") and '" ++ finish ++ "' (" ++
      finishBlock ++ ") crosses top-level components"
  | ineffective start finish reason =>
    "relation between '" ++ start ++ "' and '" ++ finish ++ "' has no effect: " ++ reason

/-- The key that warnings are listed by: their kind, then their texts. -/
def key : Warning → Nat × List String
  | crossBlock start finish startBlock finishBlock =>
    (0, [start, finish, startBlock, finishBlock])
  | ineffective start finish reason => (1, [start, finish, reason])

/-- The order of warnings. -/
def lt : Warning → Warning → Bool := keyLt key (pairLt natLt (listLt textLt))

/-- The reason why a pair with an uncalled method has no effect. -/
def neverCalled (name : String) : String := "'" ++ name ++ "' is never called"

/-- The reason why a pair with anything else that no candidate takes part in has no effect. -/
def neverRuns (name : String) : String := "'" ++ name ++ "' never runs"

end Warning

end Interlock
