/-
Wiring: the logic that turns a plan into a running design.

A call is accepted if the method is ready, likes the arguments, and has all its own calls
accepted; an action's calls are accepted if each of them is or is not enabled.  A candidate could
run if all its members ask to and all their calls are accepted.  The policy picks among those,
and its grants become run bits: of the transactions first, then of the calls, and then of the
methods, which also get the arguments of the calls that run.
-/
import Interlock.Granting
import Interlock.Combination

namespace Interlock

/-- The nodes by which a design is watched. -/
structure Wiring where
  /-- For every candidate, whether it could run. -/
  runnable : List NodeId
  /-- For every candidate, whether it does. -/
  grants : List NodeId
  /-- For every call site, whether the call happens. -/
  callRuns : List NodeId
  deriving DecidableEq, Repr

namespace Wiring

/-- Actions with the nodes that say whether all their calls are accepted. -/
abbrev Accepted := List (ActionId × NodeId)

/-- Drives a wire with zero, unless it is driven. -/
def ground (wire : NodeId) : Build Unit := do
  unless ← ofExcept ((← get).isDriven wire) do
    Build.drive wire (← Build.constant 0 (← Build.width wire))

/-- Grounds the results that the designer left open. -/
def groundOutputs (plan : Plan) : Build Unit :=
  plan.roster.methods.forM fun (_, method) => method.dataOut.nodes.forM ground

/-! ### Acceptance -/

/-- The bit by which a validator judges some arguments. -/
def verdict (validator : Validator) (arguments : Bundle) : Build NodeId := do
  let valid ← validator arguments
  Build.matchWidths "argument validator" 1 (← Build.width valid)
  return valid

/-- What a method asks of a call by itself: to be ready, and to like the arguments. -/
def terms (callee : Action) (arguments : Bundle) : Build (List NodeId) :=
  match callee.validator? with
  | none => return [callee.ready]
  | some validator => return [callee.ready, ← verdict validator arguments]

/-- Whether a call is accepted, if it is enabled.  The calls of the method are judged by the
function given. -/
def acceptSite (plan : Plan) (below : Accepted → ActionId → Build (NodeId × Accepted))
    (accepted : Accepted) (site : CallSite) : Build (NodeId × Accepted) := do
  let own ← match plan.roster.actions[site.callee]? with
    | some callee => terms callee site.arguments
    | none => pure []
  let (calls, accepted) ← below accepted site.callee
  let all ← Build.andAll (own ++ [calls])
  return (← Build.implies site.enable all, accepted)

/-- Whether all calls of an action are accepted.  What was worked out before is used again; the
first number bounds the depth of calls. -/
def accept (plan : Plan) : Nat → Accepted → ActionId → Build (NodeId × Accepted)
  | 0, accepted, _ => return (← Build.low, accepted)
  | depth + 1, accepted, action =>
    match accepted.lookup action with
    | some node => return (node, accepted)
    | none => do
      let (sites, accepted) ← (plan.calls.byCaller action).foldlM
        (fun (sites, accepted) (_, site) => do
          let (node, accepted) ← acceptSite plan (accept plan depth) accepted site
          return (sites ++ [node], accepted))
        ([], accepted)
      let node ← Build.andAll sites
      return (node, (action, node) :: accepted)

/-- Whether the calls of every action are accepted. -/
def acceptAll (plan : Plan) : Build Accepted :=
  (List.range plan.roster.size).foldlM
    (fun accepted action => return (← accept plan (plan.roster.size + 1) accepted action).2) []

/-! ### Running -/

/-- The ready node of an action. -/
def readyOf (plan : Plan) (action : ActionId) : NodeId :=
  (plan.roster.actions[action]?.map (·.ready)).getD 0

/-- The run wire of an action. -/
def runOf (plan : Plan) (action : ActionId) : NodeId :=
  (plan.roster.actions[action]?.map (·.run)).getD 0

/-- Whether a candidate could run. -/
def candidateRunnable (plan : Plan) (accepted : Accepted) (candidate : Candidate) :
    Build NodeId :=
  Build.andAll <| candidate.members.flatMap fun member =>
    [readyOf plan member, (accepted.lookup member).getD 0]

/-- Lets a transaction run whenever a candidate that holds it is granted. -/
def runTransaction (contention : Contention) (grants : List NodeId) (id : ActionId)
    (transaction : Action) : Build Unit := do
  let granted := (contention.holdersOf id).map (grants.getD · 0)
  Build.drive transaction.run (← Build.orAll granted)

/-- Lets a call happen whenever its caller runs and enables it. -/
def runCall (plan : Plan) (site : CallSite) : Build NodeId :=
  Build.and (runOf plan site.caller) site.enable

/-- The input of a method, made of the arguments of its call sites and their run bits. -/
def methodInput (method : Action) (arguments : List Bundle) (runs : List NodeId) :
    Build Bundle :=
  let fields := method.dataIn.fields
  match arguments, method.combiner? with
  | [], _ => Build.zeros fields
  | arguments, some combiner => do
    let value ← combiner arguments runs
    ofExcept (value.expectFields fields)
    return value
  | [only], none => return only
  | arguments, none => Build.select fields runs arguments

/-- Lets a method run whenever one of its calls happens, and connects its input. -/
def runMethod (plan : Plan) (callRuns : List NodeId) (id : ActionId) (method : Action) :
    Build Unit := do
  let sites := plan.calls.byCallee id
  let runs := sites.map fun (call, _) => callRuns.getD call 0
  Build.drive method.run (← Build.orAll runs)
  let value ← methodInput method (sites.map (·.2.arguments)) runs
  Build.driveAll method.dataIn value

/-- All the logic from acceptance to run bits. -/
def connect (plan : Plan) (contention : Contention) (policy : Policy) : Build Wiring := do
  let accepted ← acceptAll plan
  let runnable ← contention.candidates.mapM (candidateRunnable plan accepted)
  let grants ← policy.grants contention runnable
  plan.roster.transactions.forM fun (id, transaction) =>
    runTransaction contention grants id transaction
  let callRuns ← plan.calls.sites.toList.mapM (runCall plan)
  plan.roster.methods.forM fun (id, method) => runMethod plan callRuns id method
  return { runnable, grants, callRuns }

end Wiring

end Interlock
