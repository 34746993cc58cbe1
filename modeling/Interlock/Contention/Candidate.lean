/-
Candidates: what the schedule decides about.

A candidate is a set of transactions that run as one.  Couplings are declared between any
actions; here they are carried over to the transactions that the actions stand for, which gives
the candidates and the pairs of transactions that are alternatives.
-/
import Interlock.Contention.CallPath
import Interlock.Contention.Group

namespace Interlock

/-- Transactions that run as one. -/
structure Candidate where
  /-- The transactions, ascending. -/
  members : List ActionId
  /-- Their names with plus signs between. -/
  name : String
  /-- The call paths of the members, member by member. -/
  paths : List CallPath
  deriving DecidableEq, Repr

namespace Candidate

/-- The member declared first. -/
def firstMember (candidate : Candidate) : ActionId := candidate.members.headD 0

/-- Whether an action takes part: as a member, or called by one. -/
def uses (candidate : Candidate) (action : ActionId) : Bool :=
  candidate.members.contains action || candidate.paths.any (·.method == action)

end Candidate

namespace Reach

/-- The pairs of different transactions that two actions stand for. -/
def project (reach : Reach) (a b : ActionId) : List (ActionId × ActionId) :=
  (reach.standsFor a).flatMap fun x =>
    ((reach.standsFor b).filter (· != x)).map fun y => ordered x y

/-- The pairs of transactions that are alternatives. -/
def apart (reach : Reach) : List (ActionId × ActionId) :=
  ascending (pairLt natLt natLt)
    (reach.plan.couplings.independent.flatMap fun (a, b) => reach.project a b)

/-- The pairs of transactions that run together. -/
def together (reach : Reach) : List (ActionId × ActionId) :=
  ascending (pairLt natLt natLt)
    (reach.plan.couplings.simultaneous.flatMap fun (a, b) => reach.project a b)

/-- What ties the transactions together and keeps them apart.  A declared pair of simultaneous
actions must not stand for alternatives. -/
def ties (reach : Reach) : Except Fault Ties :=
  let apart := reach.apart
  let torn := reach.plan.couplings.simultaneous.find? fun (a, b) =>
    (reach.project a b).any apart.contains
  match torn with
  | some (a, b) => .error (.unsatisfiableSimultaneity (reach.plan.name a) (reach.plan.name b))
  | none => .ok ⟨reach.together, apart⟩

/-- The candidate of some transactions. -/
def candidate (reach : Reach) (members : List ActionId) : Candidate where
  members
  name := "+".intercalate (members.map reach.plan.name)
  paths := members.flatMap reach.pathsOf

/-- All candidates, ascending by their members. -/
def candidates (reach : Reach) (ties : Ties) : List Candidate :=
  (ties.units (reach.plan.roster.transactions.map Prod.fst)).map reach.candidate

end Reach

end Interlock
