/-
Audits: all assignments of some inputs are tried.

Each assignment is evaluated and the promises of the schedule are checked on what runs.  The
breaches of all assignments are listed in one order, whatever order they were found in.
-/
import Interlock.System.Basic
import Interlock.System.Breach

namespace Interlock

/-- The tables that a check of one cycle looks things up in. -/
structure Watch where
  system : System
  /-- For every candidate, those it conflicts with. -/
  rivals : Array (List Nat)
  /-- For every action, the candidates that hold it. -/
  holders : Array (List Nat)
  /-- For every candidate, the node that says whether it runs. -/
  grants : Array NodeId
  /-- For every candidate, the node that says whether it could. -/
  runnable : Array NodeId
  /-- Call sites with the nodes that say whether they happen. -/
  sites : List (CallId × CallSite × NodeId)

namespace Watch

/-- The tables of a system. -/
def ofSystem (system : System) : Watch where
  system
  rivals := (Array.range system.contention.size).map system.contention.rivals
  holders := (Array.range system.roster.size).map system.contention.holdersOf
  grants := system.wiring.grants.toArray
  runnable := system.wiring.runnable.toArray
  sites := system.calls.entries.map fun (id, site) =>
    (id, site, system.wiring.callRuns.getD id 0)

variable (watch : Watch) (valuation : Valuation)

/-- Whether an action runs. -/
def runs (action : ActionId) : Bool :=
  (watch.system.roster.actions[action]?.map fun a => valuation.bit a.run).getD false

/-- Whether a candidate is granted. -/
def granted (index : Nat) : Bool := (watch.grants[index]?.map valuation.bit).getD false

/-- Whether a candidate could run. -/
def couldRun (index : Nat) : Bool := (watch.runnable[index]?.map valuation.bit).getD false

/-- The sites of a method. -/
def sitesOf (method : ActionId) : List (CallId × CallSite × NodeId) :=
  watch.sites.filter (·.2.1.callee == method)

/-- The sites of a method at which the call happens. -/
def runningSitesOf (method : ActionId) : List (CallId × CallSite × NodeId) :=
  (watch.sitesOf method).filter fun (_, _, run) => valuation.bit run

/-! ### Actions -/

/-- Actions that run without being ready. -/
def unready : List BreachKind :=
  watch.system.roster.actions.toList.filterMap fun action =>
    if valuation.bit action.run && !valuation.bit action.ready then
      some (.runWithoutReady action.qualifiedName)
    else none

/-- Declared conflicts of which both ends run. -/
def conflicts : List BreachKind :=
  watch.system.plan.couplings.relations.filterMap fun relation =>
    if relation.isConflict && watch.runs valuation relation.start
        && watch.runs valuation relation.finish then
      some (.conflictingRuns (watch.system.name relation.start)
        (watch.system.name relation.finish))
    else none

/-- The name of a call of a method. -/
def siteName (method : Action) (call : CallId) : String :=
  method.qualifiedName ++ " via " ++ callText call

/-- Exclusive methods with several calls that happen. -/
def crowded : List BreachKind :=
  watch.system.roster.methods.filterMap fun (id, method) =>
    if method.isNonexclusive then none
    else
      match watch.runningSitesOf valuation id with
      | (first, _) :: (second, _) :: _ =>
        some (.conflictingRuns (siteName method first) (siteName method second))
      | _ => none

/-- Alternatives that run together. -/
def dependent : List BreachKind :=
  watch.system.contention.independent.filterMap fun (x, y) =>
    if watch.runs valuation x && watch.runs valuation y then
      some (.independenceViolated (watch.system.name x) (watch.system.name y))
    else none

/-! ### Candidates -/

/-- What is wrong with a granted candidate. -/
def grantedBreaches (index : Nat) (candidate : Candidate) : List BreachKind :=
  let partly := candidate.members.any (!watch.runs valuation ·)
  let clashing := (watch.rivals.getD index []).filter fun rival =>
    index < rival && watch.granted valuation rival
  (if partly then [.brokenSimultaneity candidate.name] else []) ++
    clashing.map fun rival =>
      .conflictingRuns candidate.name (watch.system.contention.name rival)

/-- What is wrong with a candidate that is not granted. -/
def idleBreaches (index : Nat) (candidate : Candidate) : List BreachKind :=
  let blocked := (watch.rivals.getD index []).any (watch.granted valuation ·)
  if watch.couldRun valuation index && !blocked then [.notMaximal candidate.name] else []

/-- What is wrong with candidates. -/
def candidates : List BreachKind :=
  watch.system.contention.candidates.zipIdx.flatMap fun (candidate, index) =>
    if watch.granted valuation index then watch.grantedBreaches valuation index candidate
    else watch.idleBreaches valuation index candidate

/-- Transactions that run although no candidate that holds them is granted. -/
def uncovered : List BreachKind :=
  watch.system.roster.transactions.filterMap fun (id, transaction) =>
    if valuation.bit transaction.run
        && !(watch.holders.getD id []).any (watch.granted valuation ·) then
      some (.brokenSimultaneity transaction.qualifiedName)
    else none

/-! ### Arguments -/

/-- The words that a method should see, if that can be said. -/
def expected? (id : ActionId) (method : Action) : Option (List Nat) :=
  match watch.sitesOf id with
  | [] => none
  | [(_, site, _)] => some (valuation.fields site.arguments)
  | _ =>
    match watch.runningSitesOf valuation id with
    | [] => some (method.dataIn.nodes.map fun _ => 0)
    | [(_, site, _)] => some (valuation.fields site.arguments)
    | _ => none

/-- Methods that do not see the arguments of the caller that runs. -/
def misled : List BreachKind :=
  watch.system.roster.methods.filterMap fun (id, method) =>
    if method.combiner?.isSome || method.dataIn.isEmpty then none
    else
      match watch.expected? valuation id method with
      | none => none
      | some words =>
        if valuation.fields method.dataIn == words then none
        else some (.combinerMismatch method.qualifiedName)

/-- Everything that is wrong in one cycle. -/
def breaches : List BreachKind :=
  watch.unready valuation ++ watch.conflicts valuation ++ watch.crowded valuation ++
    watch.dependent valuation ++ watch.candidates valuation ++ watch.uncovered valuation ++
    watch.misled valuation

end Watch

/-- A system, the inputs to be tried, and the words applied to the others. -/
structure Audit where
  system : System
  inputs : List NodeId
  base : Stimulus

/-- What an audit found. -/
structure AuditReport where
  /-- The labels of the inputs that were tried, bit 0 first. -/
  inputs : List String
  /-- The number of assignments. -/
  assignments : Nat
  /-- All breaches, in order. -/
  breaches : List Breach
  deriving DecidableEq, Repr

/-- Whether nothing was found. -/
def AuditReport.isClean (report : AuditReport) : Bool := report.breaches.isEmpty

namespace Audit

/-- An audit of some inputs of one bit, the others having fixed words. -/
def ofInputs (system : System) (inputs : List NodeId) (base : Stimulus) : Except Fault Audit :=
  if maxFreeInputs < inputs.length then .error (.tooManyInputs inputs.length)
  else .ok ⟨system, inputs, base⟩

/-- An audit of all inputs of one bit; wider inputs read zero. -/
def ofSystem (system : System) : Except Fault Audit :=
  ofInputs system ((system.circuit.inputs.filter (·.width == 1)).map (·.node)) .empty

/-- The words applied under an assignment. -/
def stimulus (audit : Audit) (assignment : Nat) : Stimulus :=
  audit.inputs.zipIdx.foldl
    (fun stimulus (input, bit) => stimulus.set input ((assignment >>> bit) % 2)) audit.base

/-- The breaches under one assignment. -/
def check (audit : Audit) (watch : Watch) (assignment : Nat) : Except Fault (List Breach) := do
  let valuation ← audit.system.evaluate (audit.stimulus assignment)
  return (watch.breaches valuation).map (⟨assignment, ·⟩)

/-- The number of assignments. -/
def assignments (audit : Audit) : Nat := Nat.pow 2 audit.inputs.length

/-- Tries all assignments. -/
def run (audit : Audit) : Except Fault AuditReport := do
  let watch := Watch.ofSystem audit.system
  let found ← (List.range audit.assignments).mapM (audit.check watch)
  return { inputs := audit.inputs.map audit.system.circuit.label
           assignments := audit.assignments
           breaches := sorted Breach.lt found.flatten }

end Audit

end Interlock
