/-
What can be wrong with a blueprint.

A name may stand for nothing, and a constant may not fit; all else is refused by the declarations
themselves.
-/
import Interlock.Plan.Fault

namespace Interlock

/-- Why a blueprint is refused. -/
inductive Blueprint.Fault where
  | unknownBlock (path : String)
  | unknownAction (name : String)
  | unknownInput (name : String)
  | constantTooWide (value width : Nat)
  /-- A method bounds an argument that it does not take. -/
  | unknownBounded (method field : String)
  | unknownArgument (caller field callee : String)
  | missingArgument (caller callee field : String)
  /-- A declaration was refused, or all of them together. -/
  | declaration (fault : Interlock.Fault)
  /-- A part of the circuit was refused. -/
  | logic (fault : Circuit.Fault)
  deriving DecidableEq, Repr

namespace Blueprint.Fault

/-- What is wrong in a blueprint itself; nothing for faults of what it declares. -/
def flaw? : Blueprint.Fault → Option String
  | unknownBlock path => some ("unknown component '" ++ path ++ "'")
  | unknownAction name => some ("unknown unit '" ++ name ++ "'")
  | unknownInput name => some ("unknown input '" ++ name ++ "'")
  | constantTooWide value width =>
    some ("constant " ++ toString value ++ " does not fit in " ++ toString width ++ " bits")
  | unknownBounded method field =>
    some ("method '" ++ method ++ "' validates unknown field '" ++ field ++ "'")
  | unknownArgument caller field callee =>
    some ("call from '" ++ caller ++ "' passes unknown argument '" ++ field ++ "' to '" ++
      callee ++ "'")
  | missingArgument caller callee field =>
    some ("call from '" ++ caller ++ "' to '" ++ callee ++ "' misses argument '" ++ field ++ "'")
  | declaration _ => none
  | logic _ => none

/-- The text of a fault of a whole design. -/
def declarationMessage (fault : Interlock.Fault) : String :=
  "Elaboration failed: " ++ fault.message

/-- What is wrong. -/
def message (fault : Blueprint.Fault) : String :=
  match fault with
  | declaration fault => declarationMessage fault
  | logic fault => "Logic error: " ++ fault.message
  | fault => "Invalid design: " ++ fault.flaw?.getD ""

end Blueprint.Fault

end Interlock
