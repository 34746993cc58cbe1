/-
Ascending lists: the lists that stand for finite sets.

A set that answers show is listed smallest first and without repeats.  Orders are given as
Boolean functions, and the ones in use are built from the order of natural numbers: pairs and
lists lexicographically, texts by the numbers of their characters.
-/
namespace Interlock

/-! ### Orders -/

/-- The order of natural numbers. -/
def natLt (a b : Nat) : Bool := decide (a < b)

/-- Pairs by their first component, and by the second where that is the same. -/
def pairLt {α β : Type} (first : α → α → Bool) (second : β → β → Bool) (a b : α × β) : Bool :=
  first a.1 b.1 || (!first b.1 a.1 && second a.2 b.2)

/-- Lists by their first difference; a list comes before its extensions. -/
def listLt {α : Type} (lt : α → α → Bool) : List α → List α → Bool
  | _, [] => false
  | [], _ :: _ => true
  | a :: as, b :: bs => lt a b || (!lt b a && listLt lt as bs)

/-- Texts by the numbers of their characters. -/
def textLt (a b : String) : Bool :=
  listLt natLt (a.toList.map Char.toNat) (b.toList.map Char.toNat)

/-- Values by the order of a key. -/
def keyLt {α β : Type} (key : α → β) (lt : β → β → Bool) (a b : α) : Bool := lt (key a) (key b)

/-! ### Lists -/

/-- Puts an element in its place, unless it is there already. -/
def insertAscending {α : Type} (lt : α → α → Bool) (x : α) : List α → List α
  | [] => [x]
  | y :: rest =>
    if lt x y then x :: y :: rest
    else if lt y x then y :: insertAscending lt x rest
    else y :: rest

/-- The distinct elements of a list, smallest first. -/
def ascending {α : Type} (lt : α → α → Bool) (elements : List α) : List α :=
  elements.foldr (insertAscending lt) []

/-- A list in order, repeats kept. -/
def sorted {α : Type} (lt : α → α → Bool) (elements : List α) : List α :=
  elements.mergeSort fun a b => !lt b a

/-- Two numbers, the smaller first. -/
def ordered (a b : Nat) : Nat × Nat := if a ≤ b then (a, b) else (b, a)

/-- Every two elements of a list, in the order of the list. -/
def pairs {α : Type} : List α → List (α × α)
  | [] => []
  | x :: rest => rest.map (x, ·) ++ pairs rest

end Interlock
