/-
Numerals: numbers written with digits to a base.

A numeral has one or more digits, the most significant first.  Beyond nine the letters go on, in
either case.
-/
import Interlock.Word

namespace Interlock.Numeral

/-- The value of a character as a digit, whatever the base. -/
def digitValue? (c : Char) : Option Nat :=
  if '0'.toNat ≤ c.toNat ∧ c.toNat ≤ '9'.toNat then some (c.toNat - '0'.toNat)
  else if 'a'.toNat ≤ c.toNat ∧ c.toNat ≤ 'z'.toNat then some (c.toNat - 'a'.toNat + 10)
  else if 'A'.toNat ≤ c.toNat ∧ c.toNat ≤ 'Z'.toNat then some (c.toNat - 'A'.toNat + 10)
  else none

/-- The value of a digit to a base. -/
def digit? (base : Nat) (c : Char) : Option Nat :=
  match digitValue? c with
  | some value => if value < base then some value else none
  | none => none

/-- Whether a character is a digit to a base. -/
def isDigit (base : Nat) (c : Char) : Bool := (digit? base c).isSome

/-- The number that digits stand for, the most significant first. -/
def ofDigits (base : Nat) (digits : List Nat) : Nat :=
  digits.foldl (fun number digit => base * number + digit) 0

/-- The number that a text of digits stands for. -/
def number? (base : Nat) (text : List Char) : Option Nat :=
  if text.isEmpty then none else (text.mapM (digit? base)).map (ofDigits base)

/-- A text without the plus sign that may stand in front. -/
def unsigned : List Char → List Char
  | '+' :: rest => rest
  | text => text

/-- The number that a text of digits stands for, if it is a word of the largest width.  A plus
sign may stand in front. -/
def word? (base : Nat) (text : List Char) : Option Nat :=
  match number? base (unsigned text) with
  | some number => if number ≤ Word.top Word.maxWidth then some number else none
  | none => none

end Interlock.Numeral
