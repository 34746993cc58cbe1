/-
What can be wrong with a request to build or evaluate a circuit.

Each constructor is one cause, and `message` is the only place that words it.
-/
import Interlock.Circuit.Shape

namespace Interlock

/-- The number of a node in its circuit, counted from 0 in the order of creation. -/
abbrev NodeId := Nat

/-- The text of a node's number, as messages show it. -/
def nodeText (node : NodeId) : String := "n" ++ toString node

namespace Circuit

/-- Why a circuit refuses a request. -/
inductive Fault where
  /-- A signal has between 1 and 64 bits. -/
  | invalidWidth (width : Nat)
  /-- Two signals of one operation differ in width. -/
  | widthMismatch (op : String) (left right : Nat)
  | unknownNode (node : NodeId)
  | notAWire (node : NodeId)
  | notAnInput (node : NodeId)
  /-- A wire takes one driver only. -/
  | alreadyDriven (name : String)
  | undrivenWire (name : String)
  /-- The signals cannot be ordered: a node waits for its own value. -/
  | combinationalLoop (label : String)
  | duplicateName (name : String)
  | arityMismatch (expected found : Nat)
  | emptyOperands (op : String)
  | shapeMismatch (expected found : List Field)
  | unknownField (name : String)
  deriving DecidableEq, Repr

/-- The text of a fault. -/
def Fault.message : Fault → String
  | invalidWidth width =>
    "invalid width " ++ toString width ++ ": must be between 1 and 64 bits"
  | widthMismatch op left right =>
    "width mismatch in " ++ op ++ ": " ++ toString left ++ " vs " ++ toString right ++ " bits"
  | unknownNode node => "unknown node " ++ nodeText node
  | notAWire node => "node " ++ nodeText node ++ " is not a wire"
  | notAnInput node => "node " ++ nodeText node ++ " is not an input"
  | alreadyDriven name => "wire '" ++ name ++ "' already driven"
  | undrivenWire name => "wire '" ++ name ++ "' has no driver"
  | combinationalLoop label => "combinational loop through '" ++ label ++ "'"
  | duplicateName name => "duplicate name '" ++ name ++ "'"
  | arityMismatch expected found =>
    "arity mismatch: expected " ++ toString expected ++ " operands, found " ++ toString found
  | emptyOperands op => op ++ " requires at least one operand"
  | shapeMismatch expected found =>
    "layout mismatch: expected " ++ Field.listText expected ++ ", found " ++ Field.listText found
  | unknownField name => "unknown field '" ++ name ++ "'"

end Circuit

end Interlock
