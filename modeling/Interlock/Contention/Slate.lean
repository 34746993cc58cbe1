/-
The slate: the candidates of a plan, before anything is said about pairs of them.
-/
import Interlock.Contention.Candidate
import Interlock.Contention.Warning

namespace Interlock

/-- The candidates of a plan with what ties their members together and keeps them apart. -/
structure Slate where
  reach : Reach
  ties : Ties
  candidates : List Candidate

namespace Slate

/-- Finds the candidates of a plan. -/
def ofReach (reach : Reach) : Except Fault Slate := do
  let ties ← reach.ties
  return ⟨reach, ties, reach.candidates ties⟩

/-- The plan of a slate. -/
def plan (slate : Slate) : Plan := slate.reach.plan

/-- The number of candidates. -/
def size (slate : Slate) : Nat := slate.candidates.length

/-- The numbers of the candidates that pass a test, ascending. -/
def numbersOf (slate : Slate) (test : Candidate → Bool) : List Nat :=
  (slate.candidates.zipIdx.filter fun (candidate, _) => test candidate).map Prod.snd

/-- The candidates that a transaction is a member of. -/
def holdersOf (slate : Slate) (action : ActionId) : List Nat :=
  slate.numbersOf (·.members.contains action)

/-- The candidates that an action takes part in. -/
def usersOf (slate : Slate) (action : ActionId) : List Nat :=
  slate.numbersOf (·.uses action)

/-- The traces of the call paths from the members of a candidate to a method. -/
def tracesTo (slate : Slate) (candidate : Candidate) (method : ActionId) : List (List String) :=
  candidate.members.flatMap fun member =>
    ((slate.reach.pathsOf member).filter (·.method == method)).map (slate.reach.trace member)

/-! ### Warnings -/

/-- The remark on a pair of which one action, the silent one, stands for nothing. -/
def ineffective (slate : Slate) (reason : ActionId → String) (start finish silent : ActionId) :
    Warning :=
  .ineffective (slate.plan.name start) (slate.plan.name finish) (reason silent)

/-- What is said of a silent action that should run together with another one. -/
def uncalled (slate : Slate) (silent : ActionId) : String :=
  Warning.neverCalled (slate.plan.name silent)

/-- What is said of a silent action that is related to another one: a method is never called, and
whatever else there is never runs. -/
def unused (slate : Slate) (silent : ActionId) : String :=
  if slate.plan.roster.actions[silent]?.any (·.isMethod) then slate.uncalled silent
  else Warning.neverRuns (slate.plan.name silent)

/-- Remarks on pairs that should run together and of which one stands for no transaction. -/
def idleTies (slate : Slate) : List Warning :=
  slate.plan.couplings.simultaneous.filterMap fun (a, b) =>
    if slate.plan.couplings.isIndependent a b then none
    else if (slate.reach.standsFor a).isEmpty then some (slate.ineffective slate.uncalled a b a)
    else if (slate.reach.standsFor b).isEmpty then some (slate.ineffective slate.uncalled a b b)
    else none

/-- Remarks on relations of which one end takes part in no candidate. -/
def idleRelations (slate : Slate) : List Warning :=
  slate.plan.couplings.relations.filterMap fun relation =>
    let (a, b) := (relation.start, relation.finish)
    if slate.plan.couplings.isIndependent a b then none
    else if (slate.usersOf a).isEmpty then some (slate.ineffective slate.unused a b a)
    else if (slate.usersOf b).isEmpty then some (slate.ineffective slate.unused a b b)
    else none

/-- The outermost block around an action, with its name. -/
def home? (slate : Slate) (action : ActionId) : Option (BlockId × String) := do
  let owner ← (← slate.plan.roster.actions[action]?).owner
  let root ← (slate.plan.blocks.root owner).toOption
  let path ← (slate.plan.blocks.path root).toOption
  return (root, path)

/-- The remark on a pair across outermost blocks. -/
def crossing? (slate : Slate) (start finish : ActionId) : Option Warning := do
  guard !(slate.plan.couplings.isAcknowledged start finish)
  let (startRoot, startPath) ← slate.home? start
  let (finishRoot, finishPath) ← slate.home? finish
  guard (startRoot != finishRoot)
  return .crossBlock (slate.plan.name start) (slate.plan.name finish) startPath finishPath

/-- Remarks on pairs across outermost blocks that nobody acknowledged. -/
def crossings (slate : Slate) : List Warning :=
  let declared := slate.plan.couplings.relations.map fun relation =>
    (relation.start, relation.finish)
  (declared ++ slate.plan.couplings.simultaneous).filterMap fun (a, b) => slate.crossing? a b

/-- All remarks, ascending. -/
def warnings (slate : Slate) : List Warning :=
  ascending Warning.lt (slate.idleTies ++ slate.idleRelations ++ slate.crossings)

end Slate

end Interlock
