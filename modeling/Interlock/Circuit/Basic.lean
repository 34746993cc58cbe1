/-
Circuits: combinational logic as an array of nodes.

Nodes are appended and never removed, and a node is named by its index.  Every node but a wire
reads nodes that were there before it; a wire gets its driver later, which is how a loop between
two parts of a design can be closed before it is known to be harmless.  The array is the only
record: which inputs and which constants exist is read off it.
-/
import Interlock.Circuit.Bundle

namespace Interlock

/-- What a node computes. -/
inductive Gate where
  /-- A named input, given a word at each evaluation. -/
  | input (name : String)
  | constant (value : Nat)
  /-- A named place holder that takes the word of its driver. -/
  | wire (name : String) (driver : Option NodeId)
  | unary (op : UnaryOp) (operand : NodeId)
  | binary (op : BinaryOp) (left right : NodeId)
  /-- One of two words, by a one-bit select. -/
  | mux (select ifTrue ifFalse : NodeId)
  /-- The words whose selects are high, combined by or: a selection if at most one is. -/
  | oneHot (selects values : List NodeId)
  deriving DecidableEq, Repr

namespace Gate

/-- The nodes a gate reads, as often as it reads them. -/
def operands : Gate → List NodeId
  | input _ => []
  | constant _ => []
  | wire _ driver => driver.toList
  | unary _ operand => [operand]
  | binary _ left right => [left, right]
  | mux select ifTrue ifFalse => [select, ifTrue, ifFalse]
  | oneHot selects values => selects ++ values

/-- The name of an input or a wire. -/
def name? : Gate → Option String
  | input name => some name
  | wire name _ => some name
  | _ => none

end Gate

/-- A signal: its width in bits and what computes it. -/
structure Node where
  width : Nat
  gate : Gate
  deriving DecidableEq, Repr

/-- Whether a node is the input of the given name. -/
def Node.isInputNamed (name : String) (node : Node) : Bool :=
  match node.gate with
  | .input own => own == name
  | _ => false

/-- A combinational circuit. -/
structure Circuit where
  nodes : Array Node
  deriving DecidableEq, Repr

namespace Circuit

/-- The circuit without nodes. -/
def empty : Circuit := ⟨#[]⟩

instance : Inhabited Circuit := ⟨empty⟩

/-- The number of nodes. -/
def size (circuit : Circuit) : Nat := circuit.nodes.size

/-- Looks a node up. -/
def node (circuit : Circuit) (id : NodeId) : Except Fault Node :=
  match circuit.nodes[id]? with
  | some node => .ok node
  | none => .error (.unknownNode id)

/-- The width of a node. -/
def width (circuit : Circuit) (id : NodeId) : Except Fault Nat :=
  Node.width <$> circuit.node id

/-- The name a node is shown by: its own, or else its number. -/
def label (circuit : Circuit) (id : NodeId) : String :=
  (circuit.nodes[id]?.bind (·.gate.name?)).getD (nodeText id)

/-- The node that computes exactly this, if there is one. -/
def find? (circuit : Circuit) (node : Node) : Option NodeId :=
  circuit.nodes.findIdx? (· == node)

/-- The input of a name. -/
def findInput? (circuit : Circuit) (name : String) : Option NodeId :=
  circuit.nodes.findIdx? (Node.isInputNamed name)

/-- A named input of a circuit. -/
structure Port where
  node : NodeId
  name : String
  width : Nat
  deriving DecidableEq, Repr

/-- The inputs, in the order of creation. -/
def inputs (circuit : Circuit) : List Port :=
  circuit.nodes.toList.zipIdx.filterMap fun (node, id) =>
    match node.gate with
    | .input name => some ⟨id, name, node.width⟩
    | _ => none

/-- Whether a node is an input. -/
def isInput (circuit : Circuit) (id : NodeId) : Bool :=
  match circuit.nodes[id]? with
  | some ⟨_, .input _⟩ => true
  | _ => false

/-- Whether a wire has its driver. -/
def isDriven (circuit : Circuit) (id : NodeId) : Except Fault Bool := do
  match (← circuit.node id).gate with
  | .wire _ driver => .ok driver.isSome
  | _ => .error (.notAWire id)

end Circuit

end Interlock
