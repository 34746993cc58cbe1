/-
Groups of transactions that run together.

Seen from the transactions, some pairs are tied together and some are kept apart.  A group is a
set of at least two transactions that hang together by ties and hold no pair kept apart; the
groups that matter are those that no further transaction can join.  They are found by size: a
group of some size grows by every partner of a member that is kept apart from none, and the tied
pairs are the groups of size two.  A group has at most all transactions, which bounds the number
of rounds.
-/
import Interlock.Ascending

namespace Interlock

/-- What ties transactions together and what keeps them apart. -/
structure Ties where
  /-- Pairs that run together, ascending, the smaller number first. -/
  together : List (Nat × Nat)
  /-- Pairs that never run together, ascending, the smaller number first. -/
  apart : List (Nat × Nat)
  deriving DecidableEq, Repr

namespace Ties

/-- Whether two transactions are kept apart. -/
def separates (ties : Ties) (a b : Nat) : Bool := ties.apart.contains (ordered a b)

/-- The transactions tied to one. -/
def partners (ties : Ties) (a : Nat) : List Nat :=
  ties.together.filterMap fun (x, y) =>
    if x = a then some y else if y = a then some x else none

/-- The transactions that can join a group. -/
def joiners (ties : Ties) (group : List Nat) : List Nat :=
  (ascending natLt (group.flatMap ties.partners)).filter fun next =>
    !group.contains next && !group.any (ties.separates · next)

/-- A group with one more member, for everyone who can join. -/
def extensions (ties : Ties) (group : List Nat) : List (List Nat) :=
  (ties.joiners group).map (insertAscending natLt · group)

/-- The groups of one size and of all larger sizes, for a number of rounds at most. -/
def grow (ties : Ties) : Nat → List (List Nat) → List (List Nat)
  | 0, _ => []
  | rounds + 1, groups =>
    if groups.isEmpty then []
    else
      groups ++ ties.grow rounds (ascending (listLt natLt) (groups.flatMap ties.extensions))

/-- All groups of at least two of so many transactions. -/
def groups (ties : Ties) (transactions : Nat) : List (List Nat) :=
  ties.grow transactions (ties.together.map fun (x, y) => [x, y])

/-- The sets of transactions that are scheduled as one: the groups that nobody can join, and every
transaction that has no partner, ascending. -/
def units (ties : Ties) (transactions : List Nat) : List (List Nat) :=
  let closed := (ties.groups transactions.length).filter (ties.joiners · |>.isEmpty)
  let alone := transactions.filter fun t => !closed.any (·.contains t)
  ascending (listLt natLt) (closed ++ alone.map ([·]))

end Ties

end Interlock
