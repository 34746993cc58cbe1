/-
Systems: finished designs.

Nothing is declared any more; only the words applied to inputs change from cycle to cycle, and
every signal follows from them.
-/
import Interlock.Declarations
import Interlock.System.Wiring
import Interlock.Circuit.Evaluation

namespace Interlock

/-- A finished design. -/
structure System where
  plan : Plan
  contention : Contention
  wiring : Wiring
  evaluator : Evaluator
  /-- The name of the policy that made the grants. -/
  policyName : String

/-- Makes a request to a circuit, whose fault becomes one of the design. -/
def Build.runOn {α : Type} (request : Build α) (circuit : Circuit) :
    Except Fault (α × Circuit) :=
  match request.run.run circuit with
  | (.ok answer, circuit) => .ok (answer, circuit)
  | (.error fault, _) => .error (.logic fault)

/-- Finishes a design: open results are grounded, the contention is worked out, and the logic that
schedules the actions is added. -/
def Declarations.finish (declarations : Declarations) (policy : Policy) :
    Except Fault System := do
  let plan := declarations.plan
  let (_, grounded) ← (Wiring.groundOutputs plan).runOn declarations.circuit
  let contention ← Contention.ofPlan plan
  let (wiring, wired) ← (Wiring.connect plan contention policy).runOn grounded
  let evaluator ← Fault.ofCircuit (Evaluator.ofCircuit wired)
  return { plan, contention, wiring, evaluator, policyName := policy.name }

namespace System

variable (system : System)

/-- The complete circuit. -/
def circuit : Circuit := system.evaluator.circuit

/-- The actions. -/
def roster : Roster := system.plan.roster

/-- The call sites. -/
def calls : Calls := system.plan.calls

/-- The name of an action, or else its number. -/
def name (action : ActionId) : String := system.plan.name action

/-- The words of all nodes in one cycle. -/
def evaluate (stimulus : Stimulus) : Except Fault Valuation :=
  Fault.ofCircuit (system.evaluator.evaluate stimulus)

/-- For every action, whether it runs. -/
def runs (valuation : Valuation) : List Bool :=
  system.roster.actions.toList.map fun action => valuation.bit action.run

/-- The actions that run, in the order of declaration. -/
def running (valuation : Valuation) : List ActionId :=
  (system.roster.entries.filter fun (_, action) => valuation.bit action.run).map Prod.fst

end System

end Interlock
