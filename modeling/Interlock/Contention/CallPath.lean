/-
Call paths: how an action reaches methods through call sites.

The calls of a design must not run in circles.  A search in depth from every action finds a
circle if there is one; if there is none, a path visits no action twice, so that paths of as many
steps as there are actions are all paths.
-/
import Interlock.Plan.Basic

namespace Interlock

/-- A method that is reached, and the call sites on the way to it, the outermost first. -/
structure CallPath where
  method : ActionId
  sites : List CallId
  deriving DecidableEq, Repr

namespace Calls

/-- The paths from an action of a number of steps at most: every call site of the action, each
followed by the paths of the method it calls. -/
def pathsFrom (calls : Calls) : Nat → ActionId → List CallPath
  | 0, _ => []
  | steps + 1, caller =>
    (calls.byCaller caller).flatMap fun (id, site) =>
      ⟨site.callee, [id]⟩ ::
        (calls.pathsFrom steps site.callee).map fun path => ⟨path.method, id :: path.sites⟩

/-- The circle that is closed by a call of an action on the way, given the actions on the way, the
latest first: it starts and ends with that action. -/
def closedBy (action : ActionId) (way : List ActionId) : List ActionId :=
  action :: (way.takeWhile (· != action)).reverse ++ [action]

/-- Searches the calls below an action in depth, given the actions on the way to it and those
found clear before.  Answers all that are clear then, or a circle.  The first argument bounds the
length of the way. -/
def search (calls : Calls) : Nat → List ActionId → List ActionId → ActionId →
    Except (List ActionId) (List ActionId)
  | 0, _, clear, _ => .ok clear
  | steps + 1, way, clear, action =>
    if clear.contains action then .ok clear
    else if way.contains action then .error (closedBy action way)
    else do
      let below ← (calls.byCaller action).foldlM
        (fun clear (_, site) => calls.search steps (action :: way) clear site.callee) clear
      return action :: below

/-- The first circle of calls among the given number of actions. -/
def circle? (calls : Calls) (actions : Nat) : Option (List ActionId) :=
  match (List.range actions).foldlM (calls.search (actions + 1) []) [] with
  | .ok _ => none
  | .error circle => some circle

end Calls

/-- A plan whose calls do not run in circles, with the call paths of every action. -/
structure Reach where
  plan : Plan
  paths : Array (List CallPath)

namespace Reach

/-- Follows all calls of a plan. -/
def ofPlan (plan : Plan) : Except Fault Reach := do
  plan.calls.entries.forM fun (_, site) => do
    plan.roster.check site.caller
    plan.roster.check site.callee
  match plan.calls.circle? plan.roster.size with
  | some circle => throw (.callCycle (circle.map plan.name))
  | none =>
    return ⟨plan, (Array.range plan.roster.size).map (plan.calls.pathsFrom plan.roster.size)⟩

/-- The call paths of an action. -/
def pathsOf (reach : Reach) (action : ActionId) : List CallPath := reach.paths.getD action []

/-- Whether an action has a call path to a method. -/
def reaches (reach : Reach) (action method : ActionId) : Bool :=
  (reach.pathsOf action).any (·.method == method)

/-- The transactions that an action stands for: itself, or those that reach it. -/
def standsFor (reach : Reach) (action : ActionId) : List ActionId :=
  (reach.plan.roster.transactions.map Prod.fst).filter fun transaction =>
    transaction == action || reach.reaches transaction action

/-- The names along a call path. -/
def trace (reach : Reach) (start : ActionId) (path : CallPath) : List String :=
  reach.plan.name start ::
    path.sites.filterMap fun call =>
      reach.plan.calls.sites[call]?.map fun site => reach.plan.name site.callee

end Reach

end Interlock
