/-
Couplings: what the designer says about pairs of actions.

Two actions may conflict, may be preferred one over the other, must run together, or must not run
together as alternatives of one choice.  The list of relations is the only record of preferences;
no relation is taken in that prefers the other one of a pair that has a preference.
-/
import Interlock.Plan.Action
import Interlock.Ascending

namespace Interlock

/-- Which end of a relation is preferred. -/
inductive Priority where
  /-- Neither: the order of declaration decides. -/
  | undefined
  /-- The start. -/
  | left
  /-- The end. -/
  | right
  deriving DecidableEq, Repr

namespace Priority

/-- The priority as the other end sees it. -/
def reversed : Priority → Priority
  | undefined => undefined
  | left => right
  | right => left

/-- Whether one end is preferred. -/
def isDefined (priority : Priority) : Bool := priority != undefined

end Priority

/-- What a relation asks for. -/
inductive RelationKind where
  /-- The two actions never run in one cycle. -/
  | conflict
  /-- One action is preferred; the two may run together. -/
  | scheduleBefore
  deriving DecidableEq, Repr

/-- A relation between two actions. -/
structure Relation where
  start : ActionId
  finish : ActionId
  kind : RelationKind
  priority : Priority
  deriving DecidableEq, Repr

namespace Relation

/-- Two actions that never run in one cycle. -/
def conflict (start finish : ActionId) (priority : Priority) : Relation :=
  ⟨start, finish, .conflict, priority⟩

/-- Two actions of which the first is preferred. -/
def before (start finish : ActionId) : Relation := ⟨start, finish, .scheduleBefore, .left⟩

/-- Whether the two actions exclude each other. -/
def isConflict (relation : Relation) : Bool := relation.kind == .conflict

/-- The preferred action and the one that yields. -/
def preference? (relation : Relation) : Option (ActionId × ActionId) :=
  match relation.priority with
  | .undefined => none
  | .left => some (relation.start, relation.finish)
  | .right => some (relation.finish, relation.start)

/-- The two actions, whatever the direction. -/
def pair (relation : Relation) : ActionId × ActionId := ordered relation.start relation.finish

end Relation

/-- All that was said about pairs of actions. -/
structure Couplings where
  /-- Conflicts and preferences, as they were declared. -/
  relations : List Relation
  /-- Pairs that run together, as they were declared. -/
  simultaneous : List (ActionId × ActionId)
  /-- Pairs of alternatives, ascending, the smaller number first. -/
  independent : List (ActionId × ActionId)
  /-- Pairs across blocks that are meant to be coupled, the smaller number first. -/
  acknowledged : List (ActionId × ActionId)
  deriving DecidableEq, Repr

namespace Couplings

/-- Nothing was said. -/
def empty : Couplings := ⟨[], [], [], []⟩

instance : Inhabited Couplings := ⟨empty⟩

/-- The preferred one of two actions. -/
def preferred? (couplings : Couplings) (a b : ActionId) : Option ActionId :=
  couplings.relations.findSome? fun relation =>
    if relation.pair = ordered a b then relation.preference?.map Prod.fst else none

/-- Whether two actions are alternatives. -/
def isIndependent (couplings : Couplings) (a b : ActionId) : Bool :=
  couplings.independent.contains (ordered a b)

/-- Whether two actions are meant to be coupled across blocks. -/
def isAcknowledged (couplings : Couplings) (a b : ActionId) : Bool :=
  couplings.acknowledged.contains (ordered a b)

/-- Whether a relation prefers one action where an earlier one prefers the other. -/
def contradicts (couplings : Couplings) (relation : Relation) : Bool :=
  match relation.preference?, couplings.preferred? relation.start relation.finish with
  | some (preferred, _), some earlier => preferred != earlier
  | _, _ => false

/-- Adds a relation between actions of the roster. -/
def relate (couplings : Couplings) (roster : Roster) (relation : Relation) :
    Except Fault Couplings := do
  roster.check relation.start
  roster.check relation.finish
  if couplings.contradicts relation then
    throw (.contradictoryPriority (roster.name relation.start) (roster.name relation.finish))
  return { couplings with relations := couplings.relations ++ [relation] }

/-- Says that each of the others runs exactly when the first action runs. -/
def join (couplings : Couplings) (roster : Roster) (a : ActionId) (others : List ActionId) :
    Except Fault Couplings := do
  (a :: others).forM roster.check
  return { couplings with simultaneous := couplings.simultaneous ++ others.map (a, ·) }

/-- Says that of some actions no two are considered together. -/
def separate (couplings : Couplings) (actions : List ActionId) : Couplings :=
  let apart := (pairs actions).filter fun (x, y) => x != y
  { couplings with
    independent := apart.foldl
      (fun known (x, y) => insertAscending (pairLt natLt natLt) (ordered x y) known)
      couplings.independent }

/-- Says that of some actions of the roster no two are considered together. -/
def keepApart (couplings : Couplings) (roster : Roster) (actions : List ActionId) :
    Except Fault Couplings := do
  actions.forM roster.check
  return couplings.separate actions

/-- Says that the first action runs together with one of the others, at most one in a cycle. -/
def offer (couplings : Couplings) (roster : Roster) (a : ActionId) (others : List ActionId) :
    Except Fault Couplings := do
  (← couplings.join roster a others).keepApart roster others

/-- Accepts a coupling across blocks. -/
def acknowledge (couplings : Couplings) (roster : Roster) (a b : ActionId) :
    Except Fault Couplings := do
  roster.check a
  roster.check b
  return { couplings with acknowledged := ordered a b :: couplings.acknowledged }

end Couplings

end Interlock
