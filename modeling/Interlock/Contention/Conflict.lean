/-
Conflicts between candidates.

Two candidates conflict if they share a member, if they hold alternatives, if both call one
exclusive method, or if they take part in the two ends of a declared conflict.  All reasons are
collected; a candidate that would conflict with itself is refused.
-/
import Interlock.Contention.Slate

namespace Interlock

/-- Why two candidates conflict. -/
inductive Reason where
  /-- A conflict was declared between actions that take part. -/
  | explicit (start finish : ActionId)
  /-- Both call the same exclusive method. -/
  | sharedMethod (method : ActionId)
  /-- Both hold the same transaction. -/
  | sharedMember (transaction : ActionId)
  /-- They hold two alternatives. -/
  | independent (first second : ActionId)
  deriving DecidableEq, Repr

/-- The key that reasons are listed by. -/
def Reason.key : Reason → List Nat
  | explicit start finish => [0, start, finish]
  | sharedMethod method => [1, method]
  | sharedMember transaction => [2, transaction]
  | independent first second => [3, first, second]

/-- A reason for the conflict of two candidates, which are given by their numbers, the smaller
first. -/
structure Clash where
  edge : Nat × Nat
  reason : Reason
  deriving DecidableEq, Repr

/-- The order in which clashes are listed: by the candidates, then by the reason. -/
def Clash.lt : Clash → Clash → Bool :=
  keyLt (fun clash => (clash.edge, clash.reason.key))
    (pairLt (pairLt natLt natLt) (listLt natLt))

namespace Slate

/-- The same reason for every two different ones of some candidates and some others. -/
def clashesBetween (reason : Reason) (these those : List Nat) : List Clash :=
  these.flatMap fun c => (those.filter (· != c)).map fun d => ⟨ordered c d, reason⟩

/-- The same reason for every two of some candidates. -/
def clashesAmong (reason : Reason) (these : List Nat) : List Clash :=
  (pairs these).map fun (c, d) => ⟨ordered c d, reason⟩

/-- Candidates that share a transaction. -/
def memberClashes (slate : Slate) : List Clash :=
  slate.plan.roster.transactions.flatMap fun (transaction, _) =>
    clashesAmong (.sharedMember transaction) (slate.holdersOf transaction)

/-- Candidates that hold two alternatives. -/
def alternativeClashes (slate : Slate) : List Clash :=
  slate.ties.apart.flatMap fun (x, y) =>
    clashesBetween (.independent x y) (slate.holdersOf x) (slate.holdersOf y)

/-- The methods that one caller at a time may use, in the order of declaration. -/
def exclusiveMethods (slate : Slate) : List (ActionId × Action) :=
  slate.plan.roster.methods.filter (!·.2.isNonexclusive)

/-- Candidates that call the same exclusive method. -/
def methodClashes (slate : Slate) : List Clash :=
  slate.exclusiveMethods.flatMap fun (method, _) =>
    clashesAmong (.sharedMethod method) (slate.usersOf method)

/-- Candidates that take part in the two ends of a declared conflict. -/
def declaredClashes (slate : Slate) : List Clash :=
  (slate.plan.couplings.relations.filter (·.isConflict)).flatMap fun relation =>
    clashesBetween (.explicit relation.start relation.finish) (slate.usersOf relation.start)
      (slate.usersOf relation.finish)

/-- All clashes, ascending. -/
def clashes (slate : Slate) : List Clash :=
  ascending Clash.lt
    (slate.memberClashes ++ slate.alternativeClashes ++ slate.methodClashes ++
      slate.declaredClashes)

/-! ### Candidates that would exclude themselves -/

/-- The candidate of a number. -/
def candidate? (slate : Slate) (index : Nat) : Option Candidate := slate.candidates[index]?

/-- The fault of a candidate that reaches an exclusive method in several ways. -/
def doubleUse? (slate : Slate) (method : ActionId × Action) (candidate : Candidate) :
    Option Fault :=
  let traces := slate.tracesTo candidate method.1
  if traces.length > 1 then
    some (.selfConflict candidate.name
      (traces.map (.callsExclusive method.2.qualifiedName ·)))
  else none

/-- How an action takes part in a candidate. -/
def involvement (slate : Slate) (candidate : Candidate) (action : ActionId) : List Involvement :=
  if candidate.members.contains action then
    [.member (slate.plan.name action) candidate.name]
  else (slate.tracesTo candidate action).map .calledVia

/-- The fault of the first candidate that takes part in both ends of a relation. -/
def bothEnds? (slate : Slate) (relation : Relation) : Option Fault :=
  let ends := slate.usersOf relation.finish
  match (slate.usersOf relation.start).find? ends.contains with
  | none => none
  | some index => (slate.candidate? index).map fun candidate =>
    .selfConflict candidate.name
      (.conflict (slate.plan.name relation.start) (slate.plan.name relation.finish) ::
        slate.involvement candidate relation.start ++
        slate.involvement candidate relation.finish)

/-- The first fault of a candidate that would exclude itself. -/
def selfConflict? (slate : Slate) : Option Fault :=
  let doubled := slate.exclusiveMethods.findSome? fun method =>
    slate.candidates.findSome? (slate.doubleUse? method)
  match doubled with
  | some fault => some fault
  | none => (slate.plan.couplings.relations.filter (·.isConflict)).findSome? slate.bothEnds?

end Slate

end Interlock
