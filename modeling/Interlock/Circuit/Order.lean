/-
The order in which nodes are evaluated.

A node can be evaluated once all its operands are.  The walk keeps, for every node, how many
reads are still waiting, and a list of the nodes found ready, which serves as its own queue: the
node at each position in turn is passed on to its readers, and those that wait for nothing more
are appended.  A node is appended at most once, so walking as many positions as there are nodes
walks the whole list, and the nodes that are left out are those that wait for each other.
-/
import Interlock.Circuit.Basic

namespace Interlock.Circuit

/-- How far the walk has come. -/
structure Progress where
  /-- The nodes whose operands all come before them, as they were found. -/
  found : Array NodeId
  /-- For every node, how many of its reads are of nodes not yet passed on. -/
  waiting : Array Nat

namespace Progress

/-- Takes one read off a reader, which is found if it was the last. -/
def release (progress : Progress) (reader : NodeId) : Progress :=
  let left := progress.waiting.getD reader 0 - 1
  { found := if left = 0 then progress.found.push reader else progress.found
    waiting := progress.waiting.setIfInBounds reader left }

/-- Passes the node at a position on to its readers. -/
def advance (readers : Array (Array NodeId)) (progress : Progress) (position : Nat) : Progress :=
  match progress.found[position]? with
  | none => progress
  | some node => (readers.getD node #[]).foldl release progress

end Progress

/-- For every node, the nodes that read it, once for every read. -/
def readers (circuit : Circuit) : Array (Array NodeId) :=
  circuit.nodes.toList.zipIdx.foldl
    (fun table (node, id) =>
      node.gate.operands.foldl (fun table operand => table.modify operand (·.push id)) table)
    (Array.replicate circuit.size #[])

/-- The start of the walk: the nodes that read nothing are found. -/
def progressStart (circuit : Circuit) : Progress :=
  let waiting := circuit.nodes.map (·.gate.operands.length)
  { found := (Array.range circuit.size).filter (waiting.getD · 0 == 0)
    waiting }

/-- The end of the walk. -/
def progressEnd (circuit : Circuit) : Progress :=
  (List.range circuit.size).foldl (Progress.advance circuit.readers) circuit.progressStart

/-- What keeps a node from being evaluated whatever the order: an undriven wire, or a read of a
node that is not there. -/
def looseEnd? (circuit : Circuit) (node : Node) : Option Fault :=
  match node.gate with
  | .wire name none => some (.undrivenWire name)
  | gate => (gate.operands.find? (circuit.size ≤ ·)).map .unknownNode

/-- The node that stands for a loop: of the nodes left waiting the first that has a name, or else
the first. -/
def culprit (circuit : Circuit) (waiting : Array Nat) : String :=
  let stuck := (List.range circuit.size).filter (0 < waiting.getD · 0)
  let named? := stuck.find? fun id => (circuit.nodes[id]?.bind (·.gate.name?)).isSome
  ((named? <|> stuck.head?).map circuit.label).getD ""

/-- All nodes, every one after the nodes it reads. -/
def evaluationOrder (circuit : Circuit) : Except Fault (List NodeId) :=
  match circuit.nodes.toList.findSome? circuit.looseEnd? with
  | some fault => .error fault
  | none =>
    let last := circuit.progressEnd
    if last.found.size = circuit.size then .ok last.found.toList
    else .error (.combinationalLoop (circuit.culprit last.waiting))

end Interlock.Circuit
