/-
Requests that extend a circuit.

A request either answers or is refused with a fault.  The circuit is kept in both cases: a
request made of several steps that is refused halfway leaves the nodes of its first steps behind.
That is why the state is outside the exception here, and why a claim about a refused request is
still a claim about a circuit.
-/
import Interlock.Circuit.Basic

namespace Interlock

/-- A request to a circuit. -/
abbrev Build := ExceptT Circuit.Fault (StateM Circuit)

namespace Build

/-- Appends a node. -/
def push (node : Node) : Build NodeId :=
  modifyGet fun circuit => (circuit.size, ⟨circuit.nodes.push node⟩)

/-- The width of a node. -/
def width (id : NodeId) : Build Nat := do
  ofExcept ((← get).width id)

/-- Refuses a width that no signal has. -/
def checkWidth (width : Nat) : Build Unit :=
  if Word.ValidWidth width then pure () else throw (.invalidWidth width)

/-- Refuses two different widths. -/
def matchWidths (op : String) (left right : Nat) : Build Unit :=
  if left = right then pure () else throw (.widthMismatch op left right)

/-! ### Leaves -/

/-- Declares a named input.  No two inputs share a name. -/
def input (name : String) (width : Nat) : Build NodeId := do
  checkWidth width
  if ((← get).findInput? name).isSome then throw (.duplicateName name)
  push ⟨width, .input name⟩

/-- The node of this kind that is there already, or else a new one. -/
def shared (node : Node) : Build NodeId := do
  match (← get).find? node with
  | some id => pure id
  | none => push node

/-- A constant of the given width; what does not fit is dropped. -/
def constant (value width : Nat) : Build NodeId := do
  checkWidth width
  shared ⟨width, .constant (Word.truncate width value)⟩

/-- The one-bit constant one. -/
def high : Build NodeId := shared ⟨1, .constant 1⟩

/-- The one-bit constant zero. -/
def low : Build NodeId := shared ⟨1, .constant 0⟩

/-- Declares a wire, to be driven later. -/
def wire (name : String) (width : Nat) : Build NodeId := do
  checkWidth width
  push ⟨width, .wire name none⟩

/-- Connects a wire to its driver. -/
def drive (target source : NodeId) : Build Unit := do
  let sourceWidth ← width source
  let targetWidth ← width target
  matchWidths "drive" targetWidth sourceWidth
  match (← ofExcept ((← get).node target)).gate with
  | .wire name none =>
    modify fun circuit =>
      ⟨circuit.nodes.setIfInBounds target ⟨targetWidth, .wire name (some source)⟩⟩
  | .wire name (some _) => throw (.alreadyDriven name)
  | _ => throw (.notAWire target)

/-! ### Operators -/

/-- An operation on one word. -/
def unary (op : UnaryOp) (operand : NodeId) : Build NodeId := do
  let operandWidth ← width operand
  push ⟨op.resultWidth operandWidth, .unary op operand⟩

/-- An operation on two words of one width. -/
def binary (op : BinaryOp) (left right : NodeId) : Build NodeId := do
  let leftWidth ← width left
  let rightWidth ← width right
  matchWidths op.name leftWidth rightWidth
  push ⟨op.resultWidth leftWidth, .binary op left right⟩

/-- Every bit inverted. -/
def not (operand : NodeId) : Build NodeId := unary .not operand

/-- Bitwise conjunction. -/
def and (left right : NodeId) : Build NodeId := binary .and left right

/-- Bitwise disjunction. -/
def or (left right : NodeId) : Build NodeId := binary .or left right

/-- Whether the conclusion holds where the premise does. -/
def implies (premise conclusion : NodeId) : Build NodeId := do
  or (← not premise) conclusion

/-- One of two words, by a one-bit select. -/
def mux (select ifTrue ifFalse : NodeId) : Build NodeId := do
  matchWidths "mux select" 1 (← width select)
  let trueWidth ← width ifTrue
  let falseWidth ← width ifFalse
  matchWidths "mux" trueWidth falseWidth
  push ⟨trueWidth, .mux select ifTrue ifFalse⟩

/-- The conjunction of all operands, high when there are none. -/
def andAll : List NodeId → Build NodeId
  | [] => high
  | first :: rest => rest.foldlM and first

/-- The disjunction of all operands, low when there are none. -/
def orAll : List NodeId → Build NodeId
  | [] => low
  | first :: rest => rest.foldlM or first

/-- The disjunction of the values whose selects are high. -/
def oneHot (selects values : List NodeId) : Build NodeId := do
  if selects.length ≠ values.length then
    throw (.arityMismatch selects.length values.length)
  match values with
  | [] => throw (.emptyOperands "one_hot")
  | first :: _ =>
    let common ← width first
    selects.forM fun select => do matchWidths "one_hot select" 1 (← width select)
    values.forM fun value => do matchWidths "one_hot" common (← width value)
    push ⟨common, .oneHot selects values⟩

end Build

end Interlock
