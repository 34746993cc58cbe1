/-
Binary fractions of 64 bits, and the decimals that are written for them.

Every finite one is a whole multiple of the least one, `2 ^ -1074`.  Its size is kept as that
multiple, so that all arithmetic is on whole numbers and rounding is written out.

A fraction is read in two steps, of which each one rounds: its digits make a whole number, and that
is multiplied with a power of ten or divided by it.  It is written with the fewest digits that name
it and no other fraction.

No design holds a fraction: one that stands in a JSON value is only handed on.
-/
import Interlock.Word

namespace Interlock

/-- A finite binary fraction of 64 bits.  There are two zeros. -/
structure Binary64 where
  negative : Bool
  /-- How many times the least fraction above zero it is, apart from the sign. -/
  size : Nat
  deriving DecidableEq, Repr

namespace Binary64

/-! ### Rounding -/

/-- The size of one. -/
def one : Nat := Nat.pow 2 1074

/-- The number of binary digits that a size can have, apart from zeros at its end. -/
def precision : Nat := 53

/-- The least number that is too large for a size. -/
def bound : Nat := Nat.pow 2 2098

/-- The whole number nearest to a quotient, and the even one of two. -/
def nearest (dividend divisor : Nat) : Nat :=
  let quotient := dividend / divisor
  let twice := 2 * (dividend % divisor)
  if twice < divisor then quotient
  else if divisor < twice then quotient + 1
  else quotient + quotient % 2

/-- The size nearest to a quotient. -/
def round (dividend divisor : Nat) : Nat :=
  let coarse := Nat.pow 2 (Nat.log2 (dividend / divisor) + 1 - precision)
  coarse * nearest dividend (coarse * divisor)

/-- The size nearest to a whole number. -/
def ofNat (number : Nat) : Nat := round (number * one) 1

/-- The size of a product. -/
def multiply (left right : Nat) : Nat := round (left * right) one

/-- The size of a quotient. -/
def divide (left right : Nat) : Nat := round (left * one) right

/-! ### Reading -/

/-- The largest power of ten that has a size. -/
def topPower : Nat := 308

/-- The size of a power of ten. -/
def powerOfTen (exponent : Nat) : Nat := ofNat (Nat.pow 10 exponent)

/-- The size of a word divided by a power of ten.  One that is too large is taken in two parts, and
beyond that nothing is left of any word. -/
def lower (size places : Nat) : Nat :=
  if places ≤ topPower then divide size (powerOfTen places)
  else if places ≤ 2 * topPower then
    divide (divide size (powerOfTen topPower)) (powerOfTen (places - topPower))
  else 0

/-- The size of a word multiplied with a power of ten, unless it is too large. -/
def raise? (size places : Nat) : Option Nat :=
  if size == 0 then some 0
  else if topPower < places then none
  else
    let product := multiply size (powerOfTen places)
    if product < bound then some product else none

/-- The size of `significand * 10 ^ exponent` for a word, unless it is too large. -/
def scale? (significand : Nat) (exponent : Int) : Option Nat :=
  if exponent < 0 then some (lower (ofNat significand) (-exponent).toNat)
  else raise? (ofNat significand) exponent.toNat

/-- Appends digits to a word for as long as it stays a word, and tells how many there were. -/
def append (word : Nat) : List Nat → Nat × Nat
  | [] => (word, 0)
  | digit :: rest =>
    let longer := 10 * word + digit
    if longer ≤ Word.top Word.maxWidth then
      let (word, count) := append longer rest
      (word, count + 1)
    else (word, 0)

/-- The fraction with some digits before and behind the point, times a power of ten, unless it is
too large.  Digits that do not fit into a word count as zeros before the point, and not at all
behind it. -/
def ofDigits? (negative : Bool) (front behind : List Nat) (power : Int) : Option Binary64 :=
  let (word, frontCount) := append 0 front
  let (word, behindCount) := append word behind
  let exponent := power + (front.length - frontCount : Nat) - (behindCount : Nat)
  (scale? word exponent).map fun size => ⟨negative, size⟩

/-! ### The decimal with the fewest digits -/

/-- The decimal `digits * 10 ^ place`. -/
structure Decimal where
  digits : Nat
  place : Int
  deriving DecidableEq, Repr

/-- The size nearest to a decimal. -/
def Decimal.size (decimal : Decimal) : Nat :=
  round (decimal.digits * Nat.pow 10 decimal.place.toNat * one)
    (Nat.pow 10 (-decimal.place).toNat)

/-- The exact decimal of a size. -/
def exact (size : Nat) : Decimal := ⟨size * Nat.pow 5 1074, -1074⟩

/-- The number of digits before the point; if there are none, the number of zeros right behind it,
below zero. -/
def magnitude (size : Nat) : Int :=
  (Nat.toDigits 10 (size * Nat.pow 10 324 / one)).length - 324

/-- The two decimals around a size that end at a place, the nearer one first. -/
def neighbours (size : Nat) (place : Int) : List Decimal :=
  let dividend := size * Nat.pow 10 (-place).toNat
  let divisor := one * Nat.pow 10 place.toNat
  let below := dividend / divisor
  let near := nearest dividend divisor
  [⟨near, place⟩, ⟨if near == below then below + 1 else below, place⟩]

/-- The largest number of digits that it takes to tell sizes apart. -/
def maxDigits : Nat := 17

/-- The decimal with the fewest digits that has a size, and of several the nearest to it. -/
def shortest (size : Nat) : Decimal :=
  let first := magnitude size - 1
  let found := (List.range maxDigits).findSome? fun (more : Nat) =>
    (neighbours size (first - more)).find? fun decimal => decimal.size == size
  found.getD (exact size)

/-! ### Writing -/

/-- Some zeros. -/
def zeros (count : Int) : List Char := List.replicate count.toNat '0'

/-- The text of digits of which the first `point` stand before the point.  There is an exponent if
the first digit would be far from the point. -/
def layout (digits : List Char) (point : Int) : List Char :=
  let length : Int := digits.length
  if 16 < point || point ≤ -5 then
    let sign := if 0 < point then ['+'] else ['-']
    let behind := if length == 1 then [] else '.' :: digits.drop 1
    digits.take 1 ++ behind ++ 'e' :: sign ++ Nat.toDigits 10 (point - 1).natAbs
  else if length ≤ point then digits ++ zeros (point - length) ++ ['.', '0']
  else if 0 < point then digits.take point.toNat ++ '.' :: digits.drop point.toNat
  else '0' :: '.' :: zeros (-point) ++ digits

/-- The text of a decimal. -/
def Decimal.text (decimal : Decimal) : List Char :=
  let digits := Nat.toDigits 10 decimal.digits
  layout (digits.reverse.dropWhile (· == '0')).reverse (digits.length + decimal.place)

/-- The text of a fraction; it always has a point or an exponent. -/
def text (value : Binary64) : String :=
  let sign := if value.negative then ['-'] else []
  let size := if value.size == 0 then ['0', '.', '0'] else (shortest value.size).text
  String.ofList (sign ++ size)

end Binary64

end Interlock
