/-
What can be wrong with the declarations of a design.

As with circuits, each constructor is one cause and `message` words it.  Where a fault speaks of
actions or candidates it holds their names: the numbers mean nothing to the designer.
-/
import Interlock.Circuit.Fault

namespace Interlock

/-- The number of a block in its hierarchy. -/
abbrev BlockId := Nat

/-- The number of an action, which is also its place in the order of declaration. -/
abbrev ActionId := Nat

/-- The number of a call site. -/
abbrev CallId := Nat

/-- The text of a block's number. -/
def blockText (block : BlockId) : String := "c" ++ toString block

/-- The text of an action's number. -/
def actionText (action : ActionId) : String := "u" ++ toString action

/-- The text of a call site's number. -/
def callText (call : CallId) : String := "call" ++ toString call

/-- The most inputs that all assignments are tried for. -/
def maxFreeInputs : Nat := 16

/-- Names along a chain. -/
def arrowText (names : List String) : String := " -> ".intercalate names

/-- What makes a candidate exclude itself. -/
inductive Involvement where
  /-- A call path ends in an exclusive method that another path reaches too. -/
  | callsExclusive (method : String) (path : List String)
  /-- Both ends of a conflict take part. -/
  | conflict (start finish : String)
  | member (action candidate : String)
  | calledVia (path : List String)
  deriving DecidableEq, Repr

/-- The text of an involvement. -/
def Involvement.message : Involvement → String
  | callsExclusive method path =>
    "calls exclusive '" ++ method ++ "' via " ++ arrowText path
  | conflict start finish => "'" ++ start ++ "' conflicts with '" ++ finish ++ "'"
  | member action candidate => "'" ++ action ++ "' is a member of " ++ candidate
  | calledVia path => "called via " ++ arrowText path

/-- What is wrong with a call, or with an action taken for a method. -/
inductive CallFlaw where
  | noOutputs
  | calleeIsTransaction
  | callsItself
  /-- The enabling signal is not a bit. -/
  | enable (fault : Circuit.Fault)
  /-- The arguments do not fit the method's input. -/
  | arguments (fault : Circuit.Fault)
  deriving DecidableEq, Repr

/-- The text of a circuit's fault where a design reports it. -/
def logicMessage (fault : Circuit.Fault) : String := "logic error: " ++ fault.message

/-- The text of a flaw. -/
def CallFlaw.message : CallFlaw → String
  | noOutputs => "only methods have outputs"
  | calleeIsTransaction => "transactions cannot be called"
  | callsItself => "a method cannot call itself"
  | enable fault => logicMessage fault
  | arguments fault => fault.message

/-- Why a declaration, or all of them together, are refused. -/
inductive Fault where
  | duplicateAction (name : String)
  | duplicateBlock (path : String)
  | unknownAction (action : ActionId)
  | unknownBlock (block : BlockId)
  | unknownCall (call : CallId)
  /-- Both of two actions are preferred over the other. -/
  | contradictoryPriority (first second : String)
  | priorityCycle (candidates : List String)
  /-- A candidate would have to exclude itself. -/
  | selfConflict (candidate : String) (chain : List Involvement)
  /-- Two actions must run together and must not. -/
  | unsatisfiableSimultaneity (first second : String)
  /-- Arguments of several callers meet and nothing says how they combine. -/
  | ambiguousCombining (method : String)
  | singleCallerViolation (method : String) (callSites : Nat)
  | callCycle (actions : List String)
  | invalidCall (caller callee : String) (flaw : CallFlaw)
  | tooManyInputs (count : Nat)
  | logic (fault : Circuit.Fault)
  deriving DecidableEq, Repr

/-- The text of a fault. -/
def Fault.message : Fault → String
  | duplicateAction name => "duplicate unit '" ++ name ++ "'"
  | duplicateBlock path => "duplicate component '" ++ path ++ "'"
  | unknownAction action => "unknown unit " ++ actionText action
  | unknownBlock block => "unknown component " ++ blockText block
  | unknownCall call => "unknown call site " ++ callText call
  | contradictoryPriority first second =>
    "contradictory priority between '" ++ first ++ "' and '" ++ second ++ "'"
  | priorityCycle candidates => "priority cycle: " ++ arrowText candidates
  | selfConflict candidate chain =>
    "'" ++ candidate ++ "' conflicts with itself: " ++
      "; ".intercalate (chain.map Involvement.message)
  | unsatisfiableSimultaneity first second =>
    "unsatisfiable simultaneity between '" ++ first ++ "' and '" ++ second ++
      "': they are independent"
  | ambiguousCombining method =>
    "method '" ++ method ++
      "' is nonexclusive with a non-empty input layout and needs a combiner"
  | singleCallerViolation method callSites =>
    "single-caller method '" ++ method ++ "' has " ++ toString callSites ++ " call sites"
  | callCycle actions => "call cycle: " ++ arrowText actions
  | invalidCall caller callee flaw =>
    "invalid call of '" ++ callee ++ "' from '" ++ caller ++ "': " ++ flaw.message
  | tooManyInputs count =>
    "exhaustive check over " ++ toString count ++ " inputs exceeds the limit of " ++
      toString maxFreeInputs
  | logic fault => logicMessage fault

/-- Passes a circuit's answer on; its fault becomes one of the design. -/
def Fault.ofCircuit {α : Type} : Except Circuit.Fault α → Except Fault α
  | .ok answer => .ok answer
  | .error fault => .error (.logic fault)

end Interlock
