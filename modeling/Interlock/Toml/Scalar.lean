/-
Values that are written without quotes: truth values, numbers, dates and times.

Such a value is a run of letters, digits and a few signs, and the whole run must be well formed.
Of fractions only that is known, and not which one is meant.  Dates and times are kept as texts in
one form, whatever letters and final zeros they were written with.
-/
import Interlock.Text.Datum
import Interlock.Text.Scanner

namespace Interlock.Toml

open Scanner

/-! ### Whole numbers -/

/-- The digits of a numeral without the underscores between them. -/
def digits? (base : Nat) : List Char → Option (List Char)
  | [] => none
  | [c] => if Numeral.isDigit base c then some [c] else none
  | c :: '_' :: rest =>
    if Numeral.isDigit base c then (digits? base rest).map (c :: ·) else none
  | c :: rest => if Numeral.isDigit base c then (digits? base rest).map (c :: ·) else none

/-- The digits of a decimal numeral.  Only zero itself starts with a zero. -/
def decimal? (text : List Char) : Option (List Char) :=
  match digits? 10 text with
  | some ('0' :: _ :: _) => none
  | digits => digits

/-- Whether a sign says that a number is below zero, and what follows the sign. -/
def signed : List Char → Bool × List Char
  | '-' :: rest => (true, rest)
  | '+' :: rest => (false, rest)
  | text => (false, text)

/-- The smallest whole number that is below zero in 64 bits, without its sign. -/
def wholeBound : Nat := Nat.pow 2 63

/-- A number without a sign, written to a base. -/
def natural? (base : Nat) (text : List Char) : Option Int :=
  match (digits? base text).bind (Numeral.number? base) with
  | some number => if number < wholeBound then some number else none
  | none => none

/-- A decimal number. -/
def integer? (text : List Char) : Option Int :=
  let (negative, rest) := signed text
  match (decimal? rest).bind (Numeral.number? 10) with
  | none => none
  | some number =>
    if negative then
      if number ≤ wholeBound then some (-(number : Int)) else none
    else
      if number < wholeBound then some number else none

/-- A whole number. -/
def whole? : List Char → Option Int
  | '0' :: 'x' :: digits => natural? 16 digits
  | '0' :: 'o' :: digits => natural? 8 digits
  | '0' :: 'b' :: digits => natural? 2 digits
  | text => integer? text

/-! ### Fractions -/

/-- The least number that the binary fractions of 64 bits round to infinity: half a step above the
largest of them. -/
def infinite : Nat := Nat.pow 2 1024 - Nat.pow 2 970

/-- Whether `significand * 10 ^ exponent` is too large.  The number of digits decides, except near
the bound. -/
def overflows (significand : Nat) (exponent : Int) : Bool :=
  let magnitude := (Nat.toDigits 10 significand).length + exponent
  if significand == 0 || decide (magnitude < 300) then false
  else if 320 < magnitude then true
  else
    infinite * Nat.pow 10 (-exponent).toNat ≤ significand * Nat.pow 10 exponent.toNat

/-- The digits that a text starts with, underscores included, and the rest. -/
def digitRun (text : List Char) : List Char × List Char :=
  text.span fun c => Numeral.isDigit 10 c || c == '_'

/-- The exponent that may end a fraction; zero if there is none. -/
def exponent? : List Char → Option Int
  | [] => some 0
  | c :: rest =>
    if c == 'e' || c == 'E' then
      let (negative, digits) := signed rest
      match (digits? 10 digits).bind (Numeral.number? 10) with
      | some number => some (if negative then -(number : Int) else number)
      | none => none
    else none

/-- The digits after the point, if there is one, and the rest. -/
def fraction? : List Char → Option (List Char × List Char)
  | '.' :: rest =>
    let (run, rest) := digitRun rest
    (digits? 10 run).map (·, rest)
  | text => some ([], text)

/-- The digits of a fraction without its sign, and the power of ten that they count. -/
def parts? (text : List Char) : Option (List Char × Int) := do
  let (run, rest) := digitRun text
  if rest.isEmpty then none
  else
    let front ← decimal? run
    let (behind, rest) ← fraction? rest
    let exponent ← exponent? rest
    return (front ++ behind, exponent - behind.length)

/-- Whether a text is a fraction.  Only one above zero can be too large. -/
def isFraction (text : List Char) : Bool :=
  let (negative, rest) := signed text
  if rest == ['i', 'n', 'f'] || rest == ['n', 'a', 'n'] then true
  else
    match parts? rest with
    | none => false
    | some (digits, exponent) =>
      negative || !overflows ((Numeral.number? 10 digits).getD 0) exponent

/-! ### Dates and times -/

/-- The digits of a number, with zeros in front up to a count. -/
def padded (count number : Nat) : List Char :=
  let digits := Nat.toDigits 10 number
  List.replicate (count - digits.length) '0' ++ digits

/-- A number of a fixed count of digits between two bounds. -/
def fixed (count first last : Nat) : Scanner Nat := do
  let number ← numeral 10 count
  if number < first || last < number then refuse
  return number

/-- The number of days of a month. -/
def daysOf (year month : Nat) : Nat :=
  let leap := year % 4 == 0 && (year % 100 != 0 || year % 400 == 0)
  if month == 2 then if leap then 29 else 28
  else if [4, 6, 9, 11].contains month then 30
  else 31

/-- A date. -/
def date : Scanner (List Char) := do
  let year ← fixed 4 0 9999
  expect '-'
  let month ← fixed 2 1 12
  expect '-'
  let day ← fixed 2 1 (daysOf year month)
  return padded 4 year ++ '-' :: padded 2 month ++ '-' :: padded 2 day

/-- The number of digits that count in the fraction of a second. -/
def secondPrecision : Nat := 9

/-- The fraction of a second, if there is one.  It has no zeros at its end. -/
def secondFraction : Scanner (List Char) := do
  if ← skip ['.'] then
    let digits ← takeWhile (Numeral.isDigit 10)
    if digits.isEmpty then refuse
    let counting := (digits.take secondPrecision).reverse.dropWhile (· == '0')
    return if counting.isEmpty then [] else '.' :: counting.reverse
  else return []

/-- A time of day.  There are leap seconds. -/
def time : Scanner (List Char) := do
  let hour ← fixed 2 0 23
  expect ':'
  let minute ← fixed 2 0 59
  expect ':'
  let second ← fixed 2 0 60
  return padded 2 hour ++ ':' :: padded 2 minute ++ ':' :: padded 2 second ++ (← secondFraction)

/-- How far a time is from universal time, if that is said.  No distance is not negative. -/
def offset : Scanner (List Char) := do
  match (← ahead).head? with
  | none => return []
  | some c =>
    let _ ← next
    if c == '+' || c == '-' then
      let hours ← fixed 2 0 23
      expect ':'
      let minutes ← fixed 2 0 59
      let sign := if hours == 0 && minutes == 0 then '+' else c
      return sign :: padded 2 hours ++ ':' :: padded 2 minutes
    else if c == 'Z' || c == 'z' then return ['Z']
    else refuse

/-- A date and a time of day. -/
def dateTime : Scanner (List Char) := do
  let date ← date
  let separator ← next
  if separator != 'T' && separator != 't' && separator != ' ' then refuse
  let time ← time
  return date ++ 'T' :: time ++ (← offset)

/-- Whether a text is a date. -/
def isDate (text : List Char) : Bool := (runAll date text).isSome

/-- A date, a time of day, or both. -/
def moment? (text : List Char) : Option (List Char) :=
  runAll date text <|> runAll time text <|> runAll dateTime text

/-! ### All of them -/

/-- Whether a character may stand in a value without quotes. -/
def isBare (c : Char) : Bool := c.isAlphanum || ['+', '-', '.', '_', ':'].contains c

/-- The characters of a value without quotes.  A date and a time may have a space between. -/
def bareRun : Scanner (List Char) := do
  let run ← takeWhile isBare
  match ← ahead with
  | ' ' :: c :: _ =>
    if isDate run && c.isDigit then
      let _ ← next
      return run ++ ' ' :: (← takeWhile isBare)
    else return run
  | _ => return run

/-- The value that is written without quotes. -/
def scalar? (text : List Char) : Option Datum :=
  if text == ['t', 'r', 'u', 'e'] then some (.bool true)
  else if text == ['f', 'a', 'l', 's', 'e'] then some (.bool false)
  else
    match whole? text with
    | some number => some (.whole number)
    | none =>
      if isFraction text then some .fraction
      else (moment? text).map fun value => .moment (String.ofList value)

/-- A value without quotes. -/
def scalar : Scanner Datum := do accept (scalar? (← bareRun))

end Interlock.Toml
