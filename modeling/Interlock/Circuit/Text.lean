/-
The text of a node: what computes it, and its width.  It is for whoever looks at a circuit; requests
and evaluations do without it.
-/
import Interlock.Circuit.Basic

namespace Interlock

/-- A list of nodes by their numbers. -/
def nodeListText (nodes : List NodeId) : String :=
  "[" ++ ",".intercalate (nodes.map nodeText) ++ "]"

/-- The name of an operation on one word. -/
def UnaryOp.name : UnaryOp → String
  | .not => "not"
  | .any => "any"
  | .all => "all"

/-- What computes a node, in words. -/
def Gate.text : Gate → String
  | input name => "input " ++ name
  | constant value => "const " ++ toString value
  | wire name none => "wire " ++ name
  | wire name (some driver) => "wire " ++ name ++ " <- " ++ nodeText driver
  | unary op operand => op.name ++ " " ++ nodeText operand
  | binary op left right => op.name ++ " " ++ nodeText left ++ "," ++ nodeText right
  | mux select ifTrue ifFalse =>
    "mux " ++ nodeText select ++ "," ++ nodeText ifTrue ++ "," ++ nodeText ifFalse
  | oneHot selects values => "one_hot " ++ nodeListText selects ++ " " ++ nodeListText values

/-- The text of a node. -/
def Node.text (node : Node) : String := node.gate.text ++ " :" ++ toString node.width

end Interlock
