/-
Words of a given width.

A signal of width `w` carries a natural number below `2 ^ w`, and arithmetic drops whatever does
not fit.  The widest word has 64 bits; a larger width stands for that one.  Keeping words as
natural numbers with the reduction written out makes every operation an equation of arithmetic.
-/
namespace Interlock.Word

/-- The width of the widest word. -/
def maxWidth : Nat := 64

/-- A width that a signal may have. -/
def ValidWidth (width : Nat) : Prop := 1 ≤ width ∧ width ≤ maxWidth

instance (width : Nat) : Decidable (ValidWidth width) :=
  inferInstanceAs (Decidable (_ ∧ _))

/-- The number of words of a width. -/
def count (width : Nat) : Nat := Nat.pow 2 (min width maxWidth)

/-- The largest word of a width: all bits set. -/
def top (width : Nat) : Nat := count width - 1

/-- The low bits of a value. -/
def truncate (width value : Nat) : Nat := value % count width

/-- Whether the lowest bit is set. -/
def isHigh (value : Nat) : Bool := value % 2 == 1

theorem count_pos (width : Nat) : 0 < count width := Nat.two_pow_pos _

theorem truncate_lt (width value : Nat) : truncate width value < count width :=
  Nat.mod_lt _ (count_pos width)

theorem truncate_of_lt {width value : Nat} (h : value < count width) :
    truncate width value = value :=
  Nat.mod_eq_of_lt h

theorem le_top_iff {width value : Nat} : value ≤ top width ↔ value < count width := by
  have := count_pos width
  unfold top
  omega

end Interlock.Word

namespace Interlock

/-- Operations on one word. -/
inductive UnaryOp where
  /-- Every bit inverted. -/
  | not
  /-- One bit: is any bit set? -/
  | any
  /-- One bit: are all bits set? -/
  | all
  deriving DecidableEq, Repr

namespace UnaryOp

/-- The width of the result for an operand of the given width. -/
def resultWidth : UnaryOp → Nat → Nat
  | not, width => width
  | any, _ => 1
  | all, _ => 1

/-- The result for an operand of the given width. -/
def apply (op : UnaryOp) (width value : Nat) : Nat :=
  match op with
  | not => Word.top width ^^^ value
  | any => (value != 0).toNat
  | all => (value == Word.top width).toNat

end UnaryOp

/-- Operations on two words of one width. -/
inductive BinaryOp where
  | and
  | or
  | xor
  /-- Addition without carry out. -/
  | add
  /-- Subtraction without borrow out. -/
  | sub
  | eq
  | ne
  /-- Unsigned order. -/
  | lt
  deriving DecidableEq, Repr

namespace BinaryOp

/-- Every operation. -/
def every : List BinaryOp := [and, or, xor, add, sub, eq, ne, lt]

/-- The name of an operation in messages. -/
def name : BinaryOp → String
  | and => "and"
  | or => "or"
  | xor => "xor"
  | add => "add"
  | sub => "sub"
  | eq => "eq"
  | ne => "ne"
  | lt => "lt"

/-- The operation of a name. -/
def ofName? (name : String) : Option BinaryOp :=
  every.find? (·.name == name)

/-- Comparisons answer one bit. -/
def isComparison : BinaryOp → Bool
  | eq | ne | lt => true
  | _ => false

/-- The width of the result for operands of the given width. -/
def resultWidth (op : BinaryOp) (width : Nat) : Nat :=
  if op.isComparison then 1 else width

/-- The result for two words.  The operands are taken as they are: only sums and differences are
reduced to the width, since nothing else can leave it. -/
def apply (op : BinaryOp) (width left right : Nat) : Nat :=
  match op with
  | and => left &&& right
  | or => left ||| right
  | xor => left ^^^ right
  | add => Word.truncate width (left + right)
  | sub => Word.truncate width (left + Word.count Word.maxWidth - right)
  | eq => (left == right).toNat
  | ne => (left != right).toNat
  | lt => (decide (left < right)).toNat

end BinaryOp

end Interlock
