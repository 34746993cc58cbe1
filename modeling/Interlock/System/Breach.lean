/-
Breaches: the ways in which a schedule can break its promises.

A breach is seen under one assignment of the inputs that were tried, which is given by a number:
bit `i` is the word of input `i`.
-/
import Interlock.Ascending

namespace Interlock

/-- What is wrong in one cycle. -/
inductive BreachKind where
  /-- An action runs although it is not ready. -/
  | runWithoutReady (action : String)
  /-- Two actions or candidates that exclude each other run together. -/
  | conflictingRuns (first second : String)
  /-- A candidate could run, nothing is in its way, and it does not run. -/
  | notMaximal (candidate : String)
  /-- A part of a candidate runs without the rest. -/
  | brokenSimultaneity (candidate : String)
  /-- Two alternatives run together. -/
  | independenceViolated (first second : String)
  /-- A method does not see the arguments of the caller that runs. -/
  | combinerMismatch (method : String)
  deriving DecidableEq, Repr

/-- A promise broken under an assignment. -/
structure Breach where
  assignment : Nat
  kind : BreachKind
  deriving DecidableEq, Repr

namespace BreachKind

/-- The place of a kind in lists of breaches. -/
def rank : BreachKind → Nat
  | runWithoutReady _ => 0
  | conflictingRuns _ _ => 1
  | notMaximal _ => 2
  | brokenSimultaneity _ => 3
  | independenceViolated _ _ => 4
  | combinerMismatch _ => 5

/-- The names that a breach speaks of. -/
def names : BreachKind → List String
  | runWithoutReady action => [action]
  | conflictingRuns first second => [first, second]
  | notMaximal candidate => [candidate]
  | brokenSimultaneity candidate => [candidate]
  | independenceViolated first second => [first, second]
  | combinerMismatch method => [method]

/-- What is wrong, in words. -/
def message : BreachKind → String
  | runWithoutReady action => "'" ++ action ++ "' runs without being ready"
  | conflictingRuns first second => "'" ++ first ++ "' and '" ++ second ++ "' run together"
  | notMaximal candidate => "'" ++ candidate ++ "' is runnable but idle and unblocked"
  | brokenSimultaneity candidate => "'" ++ candidate ++ "' runs partially"
  | independenceViolated first second =>
    "alternatives '" ++ first ++ "' and '" ++ second ++ "' run together"
  | combinerMismatch method => "data_in of '" ++ method ++ "' does not match its caller"

end BreachKind

namespace Breach

/-- An assignment in hexadecimal digits. -/
def assignmentText (assignment : Nat) : String :=
  "0x" ++ String.ofList (Nat.toDigits 16 assignment)

/-- The text of a breach. -/
def message (breach : Breach) : String :=
  "[" ++ assignmentText breach.assignment ++ "] " ++ breach.kind.message

/-- The order of breaches: by kind, then by assignment, then by the names. -/
def lt : Breach → Breach → Bool :=
  keyLt (fun breach => (breach.kind.rank, breach.assignment, breach.kind.names))
    (pairLt natLt (pairLt natLt (listLt textLt)))

end Breach

end Interlock
