/-
Assembly: from a blueprint to a system.

Everything that the blueprint lists is declared, kind after kind and in the order of the list, and
the declarations are finished with the eager policy.  The first fault ends the assembly.
-/
import Interlock.Blueprint.Basic
import Interlock.Blueprint.Fault
import Interlock.Combination
import Interlock.System.Basic

namespace Interlock

/-- The block of a path.  The last one counts, if several have one path. -/
def Hierarchy.findPath? (hierarchy : Hierarchy) (path : String) : Option BlockId :=
  ((List.range hierarchy.size).filter fun id =>
    (hierarchy.path id).toOption == some path).getLast?

/-- Declares what a blueprint lists. -/
abbrev Assembly := ExceptT Blueprint.Fault (StateM Declarations)

namespace Assembly

open Blueprint

/-- Makes a declaration. -/
def declare {α : Type} (request : Declare α) : Assembly α :=
  ExceptT.adapt Fault.declaration request

/-- Makes a request to the circuit. -/
def logic {α : Type} (request : Build α) : Assembly α := do
  let state ← get
  let (answer, circuit) := request.run.run state.circuit
  set { state with circuit }
  match answer with
  | .ok answer => return answer
  | .error fault => throw (.logic fault)

/-- Looks something up, or else refuses. -/
def orFault {α : Type} (fault : Blueprint.Fault) : Option α → Assembly α
  | some found => return found
  | none => throw fault

/-! ### Names -/

/-- The block of a path, if a path is given. -/
def block : Option String → Assembly (Option BlockId)
  | none => return none
  | some path => do
    return some (← orFault (.unknownBlock path) ((← get).plan.blocks.findPath? path))

/-- The action of a qualified name. -/
def action (name : String) : Assembly ActionId := do
  orFault (.unknownAction name) ((← get).plan.roster.find? name)

/-- The node of a signal.  A constant takes the width it is used with, and must fit. -/
def signal (signal : Signal) (width : Nat) : Assembly NodeId := do
  match signal with
  | .input name => orFault (.unknownInput name) ((← get).circuit.findInput? name)
  | .constant value =>
    if Word.top width < value then throw (.constantTooWide value width)
    logic (Build.constant value width)

/-! ### Methods and calls -/

/-- Accepts arguments below a limit.  A limit that no word of the field reaches accepts all. -/
def judge (limit : Limit) (width : Nat) : Validator := fun arguments => do
  if Word.top width < limit.below then Build.high
  else
    let argument ← ofExcept (arguments.node limit.field)
    let bound ← Build.constant limit.below (← Build.width argument)
    Build.binary .lt argument bound

/-- How a method judges arguments. -/
def validator (method : String) (shape : Shape) (limit : Limit) : Assembly Validator := do
  let field ← orFault (.unknownBounded method limit.field) (shape.field? limit.field)
  return judge limit field.width

/-- How arguments combine. -/
def combiner (shape : Shape) : Combining → Combiner
  | .or => Combination.disjunction shape
  | .sum => Combination.sum shape

/-- Declares a method. -/
def method (method : Method) : Assembly Unit := do
  let owner ← block method.block
  let ready ← signal method.ready 1
  let input ← logic (ofExcept (Shape.ofFields method.input))
  let validator ← method.limit.mapM (validator method.name input)
  let _ ← declare (Declare.method
    { name := method.name, owner, ready := some ready, input
      nonexclusive := method.nonexclusive, singleCaller := method.singleCaller, validator
      combiner := method.combining.map (combiner input) })

/-- The signal that a call passes for a field. -/
def argument (call : Call) (field : Field) : Assembly NodeId := do
  let passed ← orFault (.missingArgument call.caller call.callee field.name)
    (call.arguments.lookup field.name)
  signal passed field.width

/-- What a call passes that the method does not take. -/
def surplus? (call : Call) (input : List Field) : Option String :=
  (call.arguments.map Prod.fst).find? fun name => !input.any (·.name == name)

/-- The arguments of a call.  A transaction takes none, and cannot be called anyway. -/
def arguments (call : Call) (callee : ActionId) : Assembly Bundle := do
  let target ← declare (return ← ofExcept ((← Declare.plan).roster.action callee))
  match target.interface? with
  | none => return .empty
  | some interface =>
    let input := interface.dataIn.fields
    if let some name := surplus? call input then
      throw (.unknownArgument call.caller name call.callee)
    let nodes ← input.mapM (argument call)
    logic (Build.bind input nodes)

/-- Declares a call. -/
def call (call : Call) : Assembly Unit := do
  let caller ← action call.caller
  let callee ← action call.callee
  let enable ← signal call.enable 1
  let arguments ← arguments call callee
  let _ ← declare (Declare.call caller callee enable arguments)

/-! ### The other declarations -/

/-- Declares an input. -/
def input (input : Input) : Assembly Unit := do
  let _ ← logic (Build.input input.name input.width)

/-- Declares a block. -/
def addBlock (part : Blueprint.Block) : Assembly Unit := do
  let parent ← block part.parent
  let _ ← declare (Declare.block part.name parent)

/-- Declares a transaction. -/
def transaction (transaction : Transaction) : Assembly Unit := do
  let owner ← block transaction.block
  let request ← signal transaction.request 1
  let _ ← declare (Declare.transaction transaction.name owner request)

/-- Declares a conflict. -/
def conflict (conflict : Conflict) : Assembly Unit := do
  let first ← action conflict.first
  let second ← action conflict.second
  declare (Declare.conflict first second conflict.priority)

/-- Declares an ordering. -/
def ordering (ordering : Blueprint.Ordering) : Assembly Unit := do
  let before ← action ordering.before
  let after ← action ordering.after
  declare (Declare.before before after)

/-- Declares that actions run together. -/
def together (together : Together) : Assembly Unit := do
  let anchor ← action together.action
  let others ← together.others.mapM action
  declare <|
    if together.alternatives then Declare.alternatives anchor others
    else Declare.simultaneous anchor others

/-- Declares that two actions are meant to be coupled. -/
def coupled (coupled : Coupled) : Assembly Unit := do
  let first ← action coupled.first
  let second ← action coupled.second
  declare (Declare.acknowledge first second)

/-- Declares all that a blueprint lists. -/
def declareAll (blueprint : Blueprint) : Assembly Unit := do
  blueprint.inputs.forM input
  blueprint.blocks.forM addBlock
  blueprint.transactions.forM transaction
  blueprint.methods.forM method
  blueprint.calls.forM call
  blueprint.conflicts.forM conflict
  blueprint.orderings.forM ordering
  blueprint.together.forM together
  blueprint.coupled.forM coupled

end Assembly

namespace Blueprint

/-- The declarations of all that a blueprint lists. -/
def declarations (blueprint : Blueprint) : Except Blueprint.Fault Declarations :=
  match (Assembly.declareAll blueprint).run.run .empty with
  | (.ok (), declarations) => .ok declarations
  | (.error fault, _) => .error fault

/-- The system that a blueprint describes. -/
def assemble (blueprint : Blueprint) : Except Blueprint.Fault System := do
  match (← blueprint.declarations).finish .eager with
  | .ok system => return system
  | .error fault => throw (.declaration fault)

end Blueprint

end Interlock
