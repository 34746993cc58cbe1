/-
Summaries of a system: what was declared and how it is scheduled.
-/
import Interlock.System.Basic
import Interlock.System.Breach
import Interlock.Text.Json

namespace Interlock

/-- How much there is of everything. -/
structure Counts where
  actions : Nat
  transactions : Nat
  methods : Nat
  blocks : Nat
  calls : Nat
  candidates : Nat
  conflicts : Nat
  priorities : Nat
  nodes : Nat
  warnings : Nat
  deriving DecidableEq, Repr

/-- One action. -/
structure ActionSummary where
  id : ActionId
  name : String
  isTransaction : Bool
  /-- The path of the owner. -/
  owner : Option String
  /-- The number of call sites. -/
  callers : Nat
  nonexclusive : Bool
  singleCaller : Bool
  deriving DecidableEq, Repr

/-- One candidate. -/
structure CandidateSummary where
  name : String
  members : List String
  /-- The methods that members call, directly or not, each once. -/
  uses : List String
  /-- The place in the order in which candidates are considered. -/
  position : Nat
  deriving DecidableEq, Repr

/-- Two candidates that conflict. -/
structure ConflictSummary where
  first : String
  second : String
  reasons : List String
  deriving DecidableEq, Repr

/-- All there is to say about a system. -/
structure Summary where
  policy : String
  counts : Counts
  actions : List ActionSummary
  candidates : List CandidateSummary
  conflicts : List ConflictSummary
  /-- The preferred candidate and the other. -/
  priorities : List (String × String)
  /-- The candidates in the order they are considered. -/
  order : List String
  warnings : List Warning
  deriving DecidableEq, Repr

/-- The word for what an action is. -/
def roleWord (isTransaction : Bool) : String :=
  if isTransaction then "transaction" else "method"

/-- The first of every two equal texts, in order. -/
def firstOccurrences (texts : List String) : List String :=
  texts.foldl (fun seen text => if seen.contains text then seen else seen ++ [text]) []

namespace System

variable (system : System)

/-- How much there is of everything. -/
def counts : Counts where
  actions := system.roster.size
  transactions := system.roster.transactions.length
  methods := system.roster.methods.length
  blocks := system.plan.blocks.size
  calls := system.calls.size
  candidates := system.contention.size
  conflicts := system.contention.edges.length
  priorities := system.contention.priorities.length
  nodes := system.circuit.size
  warnings := system.contention.warnings.length

/-- The summary of an action. -/
def actionSummary (id : ActionId) (action : Action) : ActionSummary where
  id
  name := action.qualifiedName
  isTransaction := action.isTransaction
  owner := action.owner.bind fun block => (system.plan.blocks.path block).toOption
  callers := (system.calls.byCallee id).length
  nonexclusive := action.isNonexclusive
  singleCaller := action.isSingleCaller

/-- The summary of a candidate. -/
def candidateSummary (index : Nat) (candidate : Candidate) : CandidateSummary where
  name := candidate.name
  members := candidate.members.map system.name
  uses := firstOccurrences (candidate.paths.map fun path => system.name path.method)
  position := (system.contention.order.findIdx? (· == index)).getD index

/-- A reason in words. -/
def reasonText : Reason → String
  | .explicit start finish => system.name start ++ " conflicts with " ++ system.name finish
  | .sharedMethod method => "both call " ++ system.name method
  | .sharedMember transaction => "both contain " ++ system.name transaction
  | .independent first second =>
    system.name first ++ " and " ++ system.name second ++ " are alternatives"

/-- The summary of a conflict. -/
def conflictSummary (edge : Nat × Nat) : ConflictSummary where
  first := system.contention.name edge.1
  second := system.contention.name edge.2
  reasons := (system.contention.reasons edge.1 edge.2).map system.reasonText

/-- The summary of a system. -/
def summary : Summary where
  policy := system.policyName
  counts := system.counts
  actions := system.roster.entries.map fun (id, action) => system.actionSummary id action
  candidates := system.contention.candidates.zipIdx.map fun (candidate, index) =>
    system.candidateSummary index candidate
  conflicts := system.contention.edges.map system.conflictSummary
  priorities := system.contention.priorities.map fun (preferred, other) =>
    (system.contention.name preferred, system.contention.name other)
  order := system.contention.order.map system.contention.name
  warnings := system.contention.warnings

end System

/-! ### As JSON -/

/-- The counts as a record. -/
def Counts.toJson (counts : Counts) : Json :=
  .record [("units", .count counts.actions), ("transactions", .count counts.transactions),
    ("methods", .count counts.methods), ("components", .count counts.blocks),
    ("calls", .count counts.calls), ("candidates", .count counts.candidates),
    ("conflicts", .count counts.conflicts), ("priorities", .count counts.priorities),
    ("netlist_nodes", .count counts.nodes), ("diagnostics", .count counts.warnings)]

/-- An action as a record. -/
def ActionSummary.toJson (action : ActionSummary) : Json :=
  .record [("id", .count action.id), ("name", .text action.name),
    ("kind", .text (roleWord action.isTransaction)), ("owner", .text? action.owner),
    ("callers", .count action.callers), ("nonexclusive", .bool action.nonexclusive),
    ("single_caller", .bool action.singleCaller)]

/-- A candidate as a record. -/
def CandidateSummary.toJson (candidate : CandidateSummary) : Json :=
  .record [("name", .text candidate.name), ("members", .texts candidate.members),
    ("uses", .texts candidate.uses), ("position", .count candidate.position)]

/-- A conflict as a record. -/
def ConflictSummary.toJson (conflict : ConflictSummary) : Json :=
  .record [("first", .text conflict.first), ("second", .text conflict.second),
    ("reasons", .texts conflict.reasons)]

/-- A warning as a record. -/
def Warning.toJson : Warning → Json
  | crossBlock start finish startBlock finishBlock =>
    .record [("kind", .text "cross_component_relation"), ("start", .text start),
      ("end", .text finish), ("start_component", .text startBlock),
      ("end_component", .text finishBlock)]
  | ineffective start finish reason =>
    .record [("kind", .text "ineffective_relation"), ("start", .text start),
      ("end", .text finish), ("reason", .text reason)]

/-- A summary as a record. -/
def Summary.toJson (summary : Summary) : Json :=
  .record [("scheduler", .text summary.policy), ("stats", summary.counts.toJson),
    ("units", .list (summary.actions.map (·.toJson))),
    ("candidates", .list (summary.candidates.map (·.toJson))),
    ("conflicts", .list (summary.conflicts.map (·.toJson))),
    ("priorities", .list (summary.priorities.map fun (preferred, other) =>
      .texts [preferred, other])),
    ("order", .texts summary.order),
    ("diagnostics", .list (summary.warnings.map (·.toJson)))]

/-- The kind of a breach and the entries for the names it speaks of. -/
def BreachKind.entries : BreachKind → String × List (String × Json)
  | runWithoutReady action => ("run_without_ready", [("unit", .text action)])
  | conflictingRuns first second =>
    ("conflicting_runs", [("first", .text first), ("second", .text second)])
  | notMaximal candidate => ("not_maximal", [("candidate", .text candidate)])
  | brokenSimultaneity candidate => ("broken_simultaneity", [("candidate", .text candidate)])
  | independenceViolated first second =>
    ("independence_violated", [("first", .text first), ("second", .text second)])
  | combinerMismatch method => ("combiner_mismatch", [("method", .text method)])

/-- A breach as a record. -/
def Breach.toJson (breach : Breach) : Json :=
  let (kind, names) := breach.kind.entries
  .record (("kind", .text kind) :: ("assignment", .count breach.assignment) :: names)

end Interlock
