/-
Precedence: the order in which candidates are considered.

A preference between actions carries over to the candidates that they take part in.  Candidates
are placed one by one: next comes the smallest number whose preferred rivals are all placed.  If
preferences run in a circle nothing can be placed at some point, and a circle is found by walking
from a candidate left over to one preferred to it, until one repeats.
-/
import Interlock.Ascending

namespace Interlock.Precedence

/-- The smallest number not placed yet, all of whose predecessors are. -/
def next? (size : Nat) (edges : List (Nat × Nat)) (placed : List Nat) : Option Nat :=
  (List.range size).find? fun i =>
    !placed.contains i && edges.all fun (before, after) => after != i || placed.contains before

/-- Places numbers for so many rounds, or until none can be placed. -/
def place (size : Nat) (edges : List (Nat × Nat)) : Nat → List Nat → List Nat
  | 0, placed => placed
  | rounds + 1, placed =>
    match next? size edges placed with
    | none => placed
    | some i => place size edges rounds (placed ++ [i])

/-- Walks backwards along edges between the numbers left over, until one repeats.  The walk is
given with the latest first; so is the circle, which then follows the edges. -/
def circleFrom (edges : List (Nat × Nat)) (left : List Nat) : Nat → List Nat → Nat → List Nat
  | 0, _, _ => left
  | steps + 1, walk, current =>
    if walk.contains current then
      let circle := walk.takeWhile (· != current) ++ [current]
      circle ++ circle.head?.toList
    else
      match edges.find? fun (before, after) => after == current && left.contains before with
      | none => left
      | some (before, _) => circleFrom edges left steps (current :: walk) before

/-- The numbers below a size in an order that follows all edges and is the first of those, or else
a circle of edges. -/
def arrange (size : Nat) (edges : List (Nat × Nat)) : Except (List Nat) (List Nat) :=
  let placed := place size edges size []
  if placed.length = size then .ok placed
  else
    let left := (List.range size).filter (!placed.contains ·)
    .error (circleFrom edges left (size + 1) [] (left.headD 0))

end Interlock.Precedence
