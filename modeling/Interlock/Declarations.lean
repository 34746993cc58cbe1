/-
Declarations: a design while it is being put together.

The logic and the plan grow side by side: an action brings the wires that will carry its run bit
and its data, and a call or a coupling refers to actions that are there.  As with circuits, the
state is outside the exception: a refused declaration answers a fault and leaves a state behind.
-/
import Interlock.Plan.Basic
import Interlock.Circuit.Record

namespace Interlock

/-- A design while it is being put together. -/
structure Declarations where
  circuit : Circuit
  plan : Plan

/-- A declaration. -/
abbrev Declare := ExceptT Fault (StateM Declarations)

/-- What is said of a method when it is declared. -/
structure MethodSpec where
  name : String
  owner : Option BlockId := none
  /-- The bit that says whether the method can be called; always, if there is none. -/
  ready : Option NodeId := none
  input : Shape := .empty
  output : Shape := .empty
  nonexclusive : Bool := false
  singleCaller : Bool := false
  validator : Option Validator := none
  combiner : Option Combiner := none

/-- A declared method: its number and its wires. -/
structure MethodHandle where
  action : ActionId
  dataIn : Bundle
  dataOut : Bundle
  run : NodeId
  deriving DecidableEq, Repr

/-- A declared call: its number and the results of the method. -/
structure CallHandle where
  call : CallId
  dataOut : Bundle
  deriving DecidableEq, Repr

namespace Declarations

/-- Nothing is declared. -/
def empty : Declarations := ⟨.empty, .empty⟩

instance : Inhabited Declarations := ⟨empty⟩

end Declarations

namespace Declare

/-- The plan so far. -/
def plan : Declare Plan := return (← get).plan

/-- Replaces the plan. -/
def setPlan (plan : Plan) : Declare Unit := modify fun state => { state with plan }

/-- Makes a request to the circuit. -/
def logic {α : Type} (request : Build α) : Declare α := do
  let state ← get
  let (answer, circuit) := request.run.run state.circuit
  set { state with circuit }
  ofExcept (Fault.ofCircuit answer)

/-- Refuses a signal that is not a bit. -/
def expectBit (op : String) (node : NodeId) : Build Unit := do
  Build.matchWidths op 1 (← Build.width node)

/-! ### Blocks and actions -/

/-- Declares a block. -/
def block (name : String) (parent : Option BlockId) : Declare BlockId := do
  let plan ← plan
  let (id, blocks) ← ofExcept (plan.blocks.add name parent)
  setPlan { plan with blocks }
  return id

/-- The qualified name of a new action.  No two actions share one. -/
def qualify (name : String) (owner : Option BlockId) : Declare String := do
  let plan ← plan
  let qualified ← ofExcept (plan.blocks.qualify owner name)
  if (plan.roster.find? qualified).isSome then throw (.duplicateAction qualified)
  return qualified

/-- Adds an action to the roster.  The name is looked up again, with the action's wires there. -/
def enrol (action : Action) : Declare ActionId := do
  let plan ← plan
  if (plan.roster.find? action.qualifiedName).isSome then
    throw (.duplicateAction action.qualifiedName)
  setPlan { plan with roster := plan.roster.push action }
  return plan.roster.size

/-- The name of the wire that carries an action's run bit. -/
def runName (qualifiedName : String) : String := qualifiedName ++ ".run"

/-- Declares a transaction, which asks to run whenever the request is high. -/
def transaction (name : String) (owner : Option BlockId) (request : NodeId) :
    Declare ActionId := do
  logic (expectBit "transaction request" request)
  let qualifiedName ← qualify name owner
  let run ← logic (Build.wire (runName qualifiedName) 1)
  enrol { name, qualifiedName, owner, ready := request, run, role := .transaction }

/-- The bit that says whether a method can be called. -/
def methodReady (ready : Option NodeId) : Build NodeId :=
  match ready with
  | none => Build.high
  | some node => do
    expectBit "method ready" node
    return node

/-- Declares a method.  If several callers may run with arguments in one cycle, it must say how
the arguments combine. -/
def method (spec : MethodSpec) : Declare MethodHandle := do
  let qualifiedName ← qualify spec.name spec.owner
  if spec.nonexclusive && !spec.input.isEmpty && spec.combiner.isNone then
    throw (.ambiguousCombining qualifiedName)
  let ready ← logic (methodReady spec.ready)
  let run ← logic (Build.wire (runName qualifiedName) 1)
  let dataIn ← logic (Build.wires (qualifiedName ++ ".data_in") spec.input.fields)
  let dataOut ← logic (Build.wires (qualifiedName ++ ".data_out") spec.output.fields)
  let interface : Interface :=
    { dataIn, dataOut, nonexclusive := spec.nonexclusive, singleCaller := spec.singleCaller,
      validator := spec.validator, combiner := spec.combiner }
  let id ← enrol
    { name := spec.name, qualifiedName, owner := spec.owner, ready, run,
      role := .method interface }
  return ⟨id, dataIn, dataOut, run⟩

/-- Connects a method's results.  Results that nothing drives read zero in the end. -/
def defineOutput (method : ActionId) (value : Bundle) : Declare Unit := do
  let action ← ofExcept ((← plan).roster.action method)
  match action.interface? with
  | none =>
    throw (.invalidCall action.qualifiedName action.qualifiedName .noOutputs)
  | some interface => logic (Build.driveAll interface.dataOut value)

/-! ### Calls -/

/-- Refuses arguments that do not fit a method's input. -/
def checkArguments (input : List Field) (arguments : Bundle) : Build Unit := do
  let bound ← Build.bind input arguments.nodes
  ofExcept (bound.expectFields arguments.fields)

/-- What is wrong with a call, if anything. -/
def callFlaw? (circuit : Circuit) (caller callee : ActionId) (target : Action) (enable : NodeId)
    (arguments : Bundle) : Option CallFlaw :=
  match target.interface? with
  | none => some .calleeIsTransaction
  | some interface =>
    if caller = callee then some .callsItself
    else
      match ((expectBit "call enable" enable).run.run circuit).1 with
      | .error fault => some (.enable fault)
      | .ok () =>
        match ((checkArguments interface.dataIn.fields arguments).run.run circuit).1 with
        | .error fault => some (.arguments fault)
        | .ok () => none

/-- Declares that the caller calls the method whenever the bit is high. -/
def call (caller callee : ActionId) (enable : NodeId) (arguments : Bundle) :
    Declare CallHandle := do
  let state ← get
  let plan := state.plan
  let source ← ofExcept (plan.roster.action caller)
  let target ← ofExcept (plan.roster.action callee)
  match callFlaw? state.circuit caller callee target enable arguments with
  | some flaw => throw (.invalidCall source.qualifiedName target.qualifiedName flaw)
  | none =>
    let known := (plan.calls.byCallee callee).length
    if target.isSingleCaller && 0 < known then
      throw (.singleCallerViolation target.qualifiedName (known + 1))
    setPlan { plan with calls := plan.calls.push ⟨caller, callee, enable, arguments⟩ }
    return ⟨plan.calls.size, target.dataOut⟩

/-! ### Couplings -/

/-- Replaces the couplings by those that a change makes of them. -/
def couple (change : Couplings → Roster → Except Fault Couplings) : Declare Unit := do
  let plan ← plan
  let couplings ← ofExcept (change plan.couplings plan.roster)
  setPlan { plan with couplings }

/-- Two actions never run in one cycle. -/
def conflict (a b : ActionId) (priority : Priority) : Declare Unit :=
  couple (·.relate · (.conflict a b priority))

/-- Where both could run the first is preferred; they may still run together. -/
def before (a b : ActionId) : Declare Unit := couple (·.relate · (.before a b))

/-- Each of the others runs exactly when the first action runs. -/
def simultaneous (a : ActionId) (others : List ActionId) : Declare Unit :=
  couple (·.join · a others)

/-- The first action runs together with one of the others, at most one in a cycle.  They are tied
to it first, and then kept apart from each other. -/
def alternatives (a : ActionId) (others : List ActionId) : Declare Unit := do
  couple (·.join · a others)
  couple (·.keepApart · others)

/-- A pair across blocks is meant to be coupled. -/
def acknowledge (a b : ActionId) : Declare Unit := couple (·.acknowledge · a b)

end Declare

end Interlock
