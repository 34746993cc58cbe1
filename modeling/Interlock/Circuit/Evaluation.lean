/-
The words that a circuit's nodes carry.

An evaluator is a circuit together with an evaluation order for it, which exists exactly when
nothing is undriven and no node waits for itself.  A stimulus gives words to inputs; an input
that is given none reads zero.
-/
import Interlock.Circuit.Order

namespace Interlock

/-- Words applied to inputs, the latest first. -/
structure Stimulus where
  assigned : List (NodeId × Nat)
  deriving DecidableEq, Repr

namespace Stimulus

/-- Every input reads zero. -/
def empty : Stimulus := ⟨[]⟩

instance : Inhabited Stimulus := ⟨empty⟩

/-- Applies a word to an input, in place of an earlier one. -/
def set (stimulus : Stimulus) (input : NodeId) (word : Nat) : Stimulus :=
  ⟨(input, word) :: stimulus.assigned⟩

/-- The word applied to an input, zero if there is none. -/
def word (stimulus : Stimulus) (input : NodeId) : Nat :=
  (stimulus.assigned.lookup input).getD 0

end Stimulus

/-- The word of every node, by its number. -/
structure Valuation where
  words : Array Nat
  deriving DecidableEq, Repr

namespace Valuation

/-- The word of a node, zero if it is unknown. -/
def word (valuation : Valuation) (node : NodeId) : Nat := valuation.words.getD node 0

/-- Whether the lowest bit of a node is set. -/
def bit (valuation : Valuation) (node : NodeId) : Bool := Word.isHigh (valuation.word node)

/-- The words of a bundle, field by field. -/
def fields (valuation : Valuation) (bundle : Bundle) : List Nat :=
  bundle.nodes.map valuation.word

end Valuation

namespace Circuit

/-- The width of a node, zero if it is unknown. -/
def widthD (circuit : Circuit) (id : NodeId) : Nat :=
  match circuit.nodes[id]? with
  | some node => node.width
  | none => 0

/-- The word that a node carries, given the words applied to inputs and the words of the nodes it
reads. -/
def nodeWord (circuit : Circuit) (applied read : NodeId → Nat) (id : NodeId) (node : Node) : Nat :=
  Word.truncate node.width <|
    match node.gate with
    | .input _ => applied id
    | .constant value => value
    | .wire _ driver => (driver.map read).getD 0
    | .unary op operand => op.apply (circuit.widthD operand) (read operand)
    | .binary op left right => op.apply (circuit.widthD left) (read left) (read right)
    | .mux select ifTrue ifFalse =>
      if Word.isHigh (read select) then read ifTrue else read ifFalse
    | .oneHot selects values =>
      (selects.zip values).foldl
        (fun word (select, value) =>
          if Word.isHigh (read select) then word ||| read value else word)
        0

/-- Evaluates one node after those it reads. -/
def settle (circuit : Circuit) (stimulus : Stimulus) (words : Array Nat) (id : NodeId) :
    Array Nat :=
  match circuit.nodes[id]? with
  | none => words
  | some node =>
    words.setIfInBounds id (circuit.nodeWord stimulus.word (words.getD · 0) id node)

/-- Evaluates the nodes in the order given. -/
def valuationAlong (circuit : Circuit) (order : List NodeId) (stimulus : Stimulus) : Valuation :=
  ⟨order.foldl (circuit.settle stimulus) (Array.replicate circuit.size 0)⟩

/-- Why a word cannot be applied to a node. -/
def refusal? (circuit : Circuit) (id : NodeId) : Option Fault :=
  match circuit.nodes[id]? with
  | none => some (.unknownNode id)
  | some ⟨_, .input _⟩ => none
  | some _ => some (.notAnInput id)

end Circuit

/-- A circuit that can be evaluated. -/
structure Evaluator where
  circuit : Circuit
  order : List NodeId
  ordered : circuit.evaluationOrder = .ok order

namespace Evaluator

/-- Accepts a circuit without undriven wires and without loops. -/
def ofCircuit (circuit : Circuit) : Except Circuit.Fault Evaluator :=
  match h : circuit.evaluationOrder with
  | .ok order => .ok ⟨circuit, order, h⟩
  | .error fault => .error fault

/-- The words of all nodes.  Words can be applied to inputs only. -/
def evaluate (evaluator : Evaluator) (stimulus : Stimulus) : Except Circuit.Fault Valuation :=
  match stimulus.assigned.reverse.findSome? (evaluator.circuit.refusal? ·.1) with
  | some fault => .error fault
  | none => .ok (evaluator.circuit.valuationAlong evaluator.order stimulus)

end Evaluator

end Interlock
