/-
Actions: the transactions and methods of a design.

An action has a signal that says it is ready and a wire that will say it runs.  A transaction
asks to run by itself; a method runs when it is called, and has what a transaction lacks: data in
and out, and rules on how callers share it.
-/
import Interlock.Plan.Hierarchy
import Interlock.Circuit.Record

namespace Interlock

/-- Judges the arguments of a call: the bit is high if the method accepts them. -/
abbrev Validator := Bundle → Build NodeId

/-- Makes a method's input of the arguments of its call sites and the bits that say which of them
run. -/
abbrev Combiner := List Bundle → List NodeId → Build Bundle

/-- What only a method has. -/
structure Interface where
  /-- Wires for the combined arguments. -/
  dataIn : Bundle
  /-- Wires for the results. -/
  dataOut : Bundle
  /-- Several callers may run in one cycle. -/
  nonexclusive : Bool
  /-- At most one call site. -/
  singleCaller : Bool
  validator : Option Validator
  combiner : Option Combiner

/-- What an action is. -/
inductive Role where
  | transaction
  | method (interface : Interface)

/-- A transaction or a method. -/
structure Action where
  name : String
  /-- The name with the path of the owner in front. -/
  qualifiedName : String
  owner : Option BlockId
  ready : NodeId
  /-- The wire that is high in the cycles in which the action runs. -/
  run : NodeId
  role : Role

namespace Action

/-- What only methods have. -/
def interface? (action : Action) : Option Interface :=
  match action.role with
  | .transaction => none
  | .method interface => some interface

/-- Whether an action is a transaction. -/
def isTransaction (action : Action) : Bool := action.interface?.isNone

/-- Whether an action is a method. -/
def isMethod (action : Action) : Bool := action.interface?.isSome

/-- The wires for combined arguments; a transaction has none. -/
def dataIn (action : Action) : Bundle := (action.interface?.map (·.dataIn)).getD .empty

/-- The wires for results; a transaction has none. -/
def dataOut (action : Action) : Bundle := (action.interface?.map (·.dataOut)).getD .empty

/-- Whether several callers may run in one cycle. -/
def isNonexclusive (action : Action) : Bool := (action.interface?.map (·.nonexclusive)).getD false

/-- Whether an action may have one call site only. -/
def isSingleCaller (action : Action) : Bool := (action.interface?.map (·.singleCaller)).getD false

/-- How arguments are judged, if they are. -/
def validator? (action : Action) : Option Validator := action.interface?.bind (·.validator)

/-- How arguments are combined, if the method has a way of its own. -/
def combiner? (action : Action) : Option Combiner := action.interface?.bind (·.combiner)

end Action

/-- The actions of a design, numbered from 0 as they were declared. -/
structure Roster where
  actions : Array Action

namespace Roster

/-- No actions. -/
def empty : Roster := ⟨#[]⟩

instance : Inhabited Roster := ⟨empty⟩

/-- The number of actions, which is the number of the next one. -/
def size (roster : Roster) : Nat := roster.actions.size

/-- All actions with their numbers. -/
def entries (roster : Roster) : List (ActionId × Action) :=
  roster.actions.toList.zipIdx.map fun (action, id) => (id, action)

/-- The transactions with their numbers. -/
def transactions (roster : Roster) : List (ActionId × Action) :=
  roster.entries.filter (·.2.isTransaction)

/-- The methods with their numbers. -/
def methods (roster : Roster) : List (ActionId × Action) :=
  roster.entries.filter (·.2.isMethod)

/-- Looks an action up. -/
def action (roster : Roster) (id : ActionId) : Except Fault Action :=
  match roster.actions[id]? with
  | some action => .ok action
  | none => .error (.unknownAction id)

/-- Refuses a number that no action has. -/
def check (roster : Roster) (id : ActionId) : Except Fault Unit :=
  if id < roster.size then .ok () else .error (.unknownAction id)

/-- The action of a qualified name. -/
def find? (roster : Roster) (qualifiedName : String) : Option ActionId :=
  roster.actions.findIdx? (·.qualifiedName == qualifiedName)

/-- The qualified name of an action, or else its number. -/
def name (roster : Roster) (id : ActionId) : String :=
  (roster.actions[id]?.map (·.qualifiedName)).getD (actionText id)

/-- Adds an action. -/
def push (roster : Roster) (action : Action) : Roster := ⟨roster.actions.push action⟩

end Roster

end Interlock
