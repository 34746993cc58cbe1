/-
Contention: everything the schedule needs to know about the candidates of a plan.
-/
import Interlock.Contention.Conflict
import Interlock.Contention.Precedence

namespace Interlock

/-- The candidates of a plan, which of them conflict, and the order they are considered in. -/
structure Contention where
  slate : Slate
  /-- Why candidates conflict, ascending. -/
  clashes : List Clash
  /-- Pairs of candidates of which the first is preferred, ascending. -/
  priorities : List (Nat × Nat)
  /-- All candidates, in the order they are considered. -/
  order : List Nat
  /-- Remarks on the plan, ascending. -/
  warnings : List Warning

/-- The pairs of candidates that take part in a preferred action and in one that yields to it. -/
def Slate.priorities (slate : Slate) : List (Nat × Nat) :=
  ascending (pairLt natLt natLt) <|
    (slate.plan.couplings.relations.filterMap (·.preference?)).flatMap fun (winner, loser) =>
      (slate.usersOf winner).flatMap fun c =>
        ((slate.usersOf loser).filter (· != c)).map fun d => (c, d)

namespace Contention

/-- The name of a candidate, given by its number. -/
def nameIn (slate : Slate) (index : Nat) : String :=
  ((slate.candidate? index).map (·.name)).getD ("#" ++ toString index)

/-- Works out the contention between the candidates of a plan. -/
def ofReach (reach : Reach) : Except Fault Contention := do
  let slate ← Slate.ofReach reach
  match slate.selfConflict? with
  | some fault => throw fault
  | none =>
    match Precedence.arrange slate.size slate.priorities with
    | .error circle => throw (.priorityCycle (circle.map (nameIn slate)))
    | .ok order =>
      return { slate, clashes := slate.clashes, priorities := slate.priorities, order,
               warnings := slate.warnings }

/-- Works out the contention in a plan. -/
def ofPlan (plan : Plan) : Except Fault Contention := do
  ofReach (← Reach.ofPlan plan)

variable (contention : Contention)

/-- The candidates, ascending by their members. -/
def candidates : List Candidate := contention.slate.candidates

/-- The number of candidates. -/
def size : Nat := contention.slate.size

/-- The name of a candidate. -/
def name (index : Nat) : String := nameIn contention.slate index

/-- The pairs of candidates that conflict, the smaller number first, ascending. -/
def edges : List (Nat × Nat) :=
  ascending (pairLt natLt natLt) (contention.clashes.map (·.edge))

/-- Whether two candidates conflict. -/
def inConflict (a b : Nat) : Bool := contention.clashes.any (·.edge == ordered a b)

/-- The candidates that conflict with one, ascending. -/
def rivals (index : Nat) : List Nat :=
  (List.range contention.size).filter (contention.inConflict index)

/-- Why two candidates conflict. -/
def reasons (a b : Nat) : List Reason :=
  (contention.clashes.filter (·.edge == ordered a b)).map (·.reason)

/-- The candidates that a transaction is a member of. -/
def holdersOf (action : ActionId) : List Nat := contention.slate.holdersOf action

/-- The candidates that an action takes part in. -/
def usersOf (action : ActionId) : List Nat := contention.slate.usersOf action

/-- The pairs of transactions that are alternatives, the smaller number first, ascending. -/
def independent : List (ActionId × ActionId) := contention.slate.ties.apart

end Contention

end Interlock
