/-
Granting: the logic that grants candidates.

A policy is given one bit for every candidate that says whether it could run, and answers one
bit for every candidate that says whether it does.  The eager policy takes the candidates in the
order of the contention and grants each one that could run, unless an earlier one that conflicts
with it was granted.
-/
import Interlock.Contention.Basic
import Interlock.Circuit.Build

namespace Interlock

/-- Makes the grant of every candidate from the bits that say which of them could run. -/
structure Policy where
  name : String
  grants : Contention → List NodeId → Build (List NodeId)

namespace Policy

/-- The grant of the next candidate, given the grants decided so far. -/
def eagerGrant (contention : Contention) (runnable : List NodeId) (decided : List (Nat × NodeId))
    (current : Nat) : Build NodeId := do
  let request := runnable.getD current 0
  match (contention.rivals current).filterMap (fun rival => decided.lookup rival) with
  | [] => return request
  | blockers =>
    let blocked ← Build.orAll blockers
    Build.and request (← Build.not blocked)

/-- Decides the candidates in the order given. -/
def eagerDecide (contention : Contention) (runnable : List NodeId) :
    Build (List (Nat × NodeId)) :=
  contention.order.foldlM (fun decided current => do
    return (current, ← eagerGrant contention runnable decided current) :: decided) []

/-- Grants every candidate that could run and that no earlier granted one conflicts with. -/
def eagerGrants (contention : Contention) (runnable : List NodeId) : Build (List NodeId) := do
  if runnable.length ≠ contention.size then
    throw (.arityMismatch contention.size runnable.length)
  let decided ← eagerDecide contention runnable
  (List.range contention.size).mapM fun index =>
    match decided.lookup index with
    | some grant => return grant
    | none => throw (.undrivenWire ("grant of candidate " ++ toString index))

/-- The policy that grants as many candidates as it can, the preferred ones first. -/
def eager : Policy := ⟨"eager", eagerGrants⟩

end Policy

end Interlock
