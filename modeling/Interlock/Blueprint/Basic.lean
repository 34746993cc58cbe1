/-
Blueprints: designs as they are written down.

A blueprint names everything it speaks of: inputs and blocks by name and path, actions by
qualified name.  A signal is an input or a constant, so a blueprint has no logic of its own.
-/
import Interlock.Circuit.Shape
import Interlock.Plan.Coupling
import Interlock.Text.Json

namespace Interlock

namespace Blueprint

/-- Where a word comes from. -/
inductive Signal where
  | constant (value : Nat)
  /-- The input of a name. -/
  | input (name : String)
  deriving DecidableEq, Repr

/-- The signal that is always high. -/
def Signal.high : Signal := constant 1

/-- An input of the circuit. -/
structure Input where
  name : String
  width : Nat
  deriving DecidableEq, Repr

/-- A block. -/
structure Block where
  name : String
  /-- The path of the block it is part of. -/
  parent : Option String
  deriving DecidableEq, Repr

/-- A transaction. -/
structure Transaction where
  name : String
  /-- The path of the owner. -/
  block : Option String
  request : Signal
  deriving DecidableEq, Repr

/-- How arguments of several callers combine. -/
inductive Combining where
  /-- Bit by bit: a bit is set if a caller sets it. -/
  | or
  | sum
  deriving DecidableEq, Repr

/-- A bound for the argument in a field; the bound itself is too large. -/
structure Limit where
  field : String
  below : Nat
  deriving DecidableEq, Repr

/-- A method. -/
structure Method where
  name : String
  /-- The path of the owner. -/
  block : Option String
  ready : Signal
  input : List Field
  nonexclusive : Bool
  singleCaller : Bool
  combining : Option Combining
  limit : Option Limit
  deriving DecidableEq, Repr

/-- A call. -/
structure Call where
  caller : String
  callee : String
  enable : Signal
  /-- A signal for every field of the method's input, ascending by the names of the fields. -/
  arguments : List (String × Signal)
  deriving DecidableEq, Repr

/-- Two actions that never run in one cycle. -/
structure Conflict where
  first : String
  second : String
  priority : Priority
  deriving DecidableEq, Repr

/-- Two actions of which one is preferred. -/
structure Ordering where
  before : String
  after : String
  deriving DecidableEq, Repr

/-- Actions that run together with an action. -/
structure Together where
  action : String
  others : List String
  /-- Only one of the others runs in a cycle. -/
  alternatives : Bool
  deriving DecidableEq, Repr

/-- Two actions that are meant to be coupled across blocks. -/
structure Coupled where
  first : String
  second : String
  deriving DecidableEq, Repr

end Blueprint

/-- A design as it is written down. -/
structure Blueprint where
  inputs : List Blueprint.Input
  /-- The blocks, each after the one it is part of. -/
  blocks : List Blueprint.Block
  transactions : List Blueprint.Transaction
  methods : List Blueprint.Method
  calls : List Blueprint.Call
  conflicts : List Blueprint.Conflict
  orderings : List Blueprint.Ordering
  together : List Blueprint.Together
  coupled : List Blueprint.Coupled
  deriving DecidableEq, Repr

namespace Blueprint

/-! ### Words for choices -/

/-- The priorities by the words for them. -/
def priorities : List (String × Priority) :=
  [("undefined", .undefined), ("left", .left), ("right", .right)]

/-- The word for a priority. -/
def priorityWord : Priority → String
  | .undefined => "undefined"
  | .left => "left"
  | .right => "right"

/-- The ways to combine by the words for them. -/
def combinings : List (String × Combining) := [("or", .or), ("sum", .sum)]

/-- The word for a way to combine. -/
def combiningWord : Combining → String
  | .or => "or"
  | .sum => "sum"

/-! ### As JSON -/

/-- A signal: a number, or the name of an input. -/
def Signal.toJson : Signal → Json
  | constant value => .count value
  | input name => .text name

/-- An input as a record. -/
def Input.toJson (input : Input) : Json :=
  .record [("name", .text input.name), ("width", .count input.width)]

/-- A block as a record. -/
def Block.toJson (block : Block) : Json :=
  .record [("name", .text block.name), ("parent", .text? block.parent)]

/-- A transaction as a record. -/
def Transaction.toJson (transaction : Transaction) : Json :=
  .record [("name", .text transaction.name), ("component", .text? transaction.block),
    ("request", transaction.request.toJson)]

/-- A field as a record. -/
def fieldToJson (field : Field) : Json :=
  .record [("name", .text field.name), ("width", .count field.width)]

/-- A bound as a record. -/
def Limit.toJson (limit : Limit) : Json :=
  .record [("field", .text limit.field), ("below", .count limit.below)]

/-- A method as a record. -/
def Method.toJson (method : Method) : Json :=
  .record [("name", .text method.name), ("component", .text? method.block),
    ("ready", method.ready.toJson), ("input", .list (method.input.map fieldToJson)),
    ("nonexclusive", .bool method.nonexclusive), ("single_caller", .bool method.singleCaller),
    ("combiner", .text? (method.combining.map combiningWord)),
    ("validate", (method.limit.map (·.toJson)).getD .null)]

/-- A call as a record. -/
def Call.toJson (call : Call) : Json :=
  .record [("caller", .text call.caller), ("callee", .text call.callee),
    ("enable", call.enable.toJson),
    ("args", .record (call.arguments.map fun (field, signal) => (field, signal.toJson)))]

/-- A conflict as a record. -/
def Conflict.toJson (conflict : Conflict) : Json :=
  .record [("a", .text conflict.first), ("b", .text conflict.second),
    ("priority", .text (priorityWord conflict.priority))]

/-- An ordering as a record. -/
def Ordering.toJson (ordering : Ordering) : Json :=
  .record [("before", .text ordering.before), ("after", .text ordering.after)]

/-- Actions that run together as a record. -/
def Together.toJson (together : Together) : Json :=
  .record [("unit", .text together.action), ("with", .texts together.others),
    ("alternatives", .bool together.alternatives)]

/-- A pair as a record. -/
def Coupled.toJson (coupled : Coupled) : Json :=
  .record [("a", .text coupled.first), ("b", .text coupled.second)]

/-- A blueprint as a record, with everything that may be left out written down. -/
def toJson (blueprint : Blueprint) : Json :=
  .record [("inputs", .list (blueprint.inputs.map (·.toJson))),
    ("components", .list (blueprint.blocks.map (·.toJson))),
    ("transactions", .list (blueprint.transactions.map (·.toJson))),
    ("methods", .list (blueprint.methods.map (·.toJson))),
    ("calls", .list (blueprint.calls.map (·.toJson))),
    ("conflicts", .list (blueprint.conflicts.map (·.toJson))),
    ("orderings", .list (blueprint.orderings.map (·.toJson))),
    ("simultaneous", .list (blueprint.together.map (·.toJson))),
    ("acknowledged", .list (blueprint.coupled.map (·.toJson)))]

end Blueprint

end Interlock
