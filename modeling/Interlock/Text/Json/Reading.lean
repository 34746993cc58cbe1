/-
Reading JSON.

Values nest to a limited depth.  A number with a point or an exponent is a fraction; so is a whole
number that does not fit into 64 bits, and zero with a sign.

A blueprint may be handed over as a JSON value; the commands read TOML only.
-/
import Interlock.Text.Datum
import Interlock.Text.Json
import Interlock.Text.Scanner

namespace Interlock.Json

open Scanner

/-- The depth to which values may nest. -/
def maxDepth : Nat := 127

/-- Takes blanks and line ends. -/
def spaces : Scanner Unit := do
  let _ ← takeWhile fun c => c == ' ' || c == '\t' || c == '\n' || c == '\r'

/-! ### Texts -/

/-- The character of a number in four hexadecimal digits.  A character with a large number is
written as two escapes, with ten bits of the number in each. -/
def unicode : Scanner Char := do
  let high ← numeral 16 4
  if high < 0xd800 || 0xdbff < high then accept (character? high)
  else
    expect '\\'
    expect 'u'
    let low ← numeral 16 4
    if low < 0xdc00 || 0xdfff < low then refuse
    accept (character? (0x10000 + (high - 0xd800) * 0x400 + (low - 0xdc00)))

/-- The character that an escape stands for; the backslash was taken. -/
def escape : Scanner Char := do
  match ← next with
  | '"' => return '"'
  | '\\' => return '\\'
  | '/' => return '/'
  | 'b' => return '\x08'
  | 'f' => return '\x0c'
  | 'n' => return '\n'
  | 'r' => return '\r'
  | 't' => return '\t'
  | 'u' => unicode
  | _ => refuse

/-- Whether a character may stand for itself between quotes. -/
def isPlain (c : Char) : Bool := 31 < c.toNat && c != '"' && c != '\\'

/-- The next characters between quotes, and none at the closing quote. -/
def quotedPart : Scanner (Option (List Char)) := do
  if ← skip ['"'] then return none
  if ← skip ['\\'] then return some [← escape]
  let run ← takeWhile isPlain
  if run.isEmpty then refuse
  return some run

/-- A text in quotes. -/
def quotation : Scanner String := do
  expect '"'
  return String.ofList (← collect quotedPart).flatten

/-! ### Numbers -/

/-- One or more digits. -/
def digits : Scanner (List Nat) := do
  let run ← takeWhile (Numeral.isDigit 10)
  if run.isEmpty then refuse
  accept (run.mapM (Numeral.digit? 10))

/-- The digits before the point.  Only zero itself starts with a zero. -/
def front : Scanner (List Nat) := do
  match ← digits with
  | 0 :: _ :: _ => refuse
  | digits => return digits

/-- The digits behind the point, if there is one. -/
def behind : Scanner (List Nat) := do
  if ← skip ['.'] then digits else return []

/-- The exponent, if there is one. -/
def exponent : Scanner (Option Int) := do
  match (← ahead).head? with
  | some 'e' | some 'E' =>
    let _ ← next
    let negative ← skip ['-']
    if !negative then
      let _ ← skip ['+']
    let size := Numeral.ofDigits 10 (← digits)
    return some (if negative then -(size : Int) else size)
  | _ => return none

/-- A whole number, or a fraction if it does not fit. -/
def whole? (negative : Bool) (front : List Nat) : Option Json :=
  let size := Numeral.ofDigits 10 front
  if !negative && size ≤ Word.top Word.maxWidth then some (number size)
  else if negative && size != 0 && size ≤ Word.count (Word.maxWidth - 1) then
    some (number (-(size : Int)))
  else (Binary64.ofDigits? negative front [] 0).map fraction

/-- A number. -/
def numberValue : Scanner Json := do
  let negative ← skip ['-']
  let front ← front
  let behind ← behind
  match behind, ← exponent with
  | [], none => accept (whole? negative front)
  | _, power =>
    accept ((Binary64.ofDigits? negative front behind (power.getD 0)).map fraction)

/-! ### Values -/

/-- A value that holds no others. -/
def simpleValue : Scanner Json := do
  if ← skip ['n', 'u', 'l', 'l'] then return null
  if ← skip ['t', 'r', 'u', 'e'] then return bool true
  if ← skip ['f', 'a', 'l', 's', 'e'] then return bool false
  if ← startsWith ['"'] then text <$> quotation else numberValue

/-- The next of some items, after a comma. -/
def nextItem {α : Type} (item : Scanner α) : Scanner (Option α) := do
  if ← skip [','] then
    spaces
    some <$> item
  else return none

/-- Items with commas between them, up to a closing bracket.  An item takes the blanks after it. -/
def items {α : Type} (item : Scanner α) (closing : Char) : Scanner (List α) := do
  spaces
  if ← skip [closing] then return []
  let first ← item
  let rest ← collect (nextItem item)
  expect closing
  return first :: rest

/-- A value and the blanks after it. -/
def spaced (value : Scanner Json) : Scanner Json := do
  let answer ← value
  spaces
  return answer

/-- An entry of a record. -/
def entry (value : Scanner Json) : Scanner (String × Json) := do
  let key ← quotation
  spaces
  expect ':'
  spaces
  return (key, ← spaced value)

/-- A value in which values nest to some depth.  The keys of a record come in order, and the last of
equal keys takes the place of the others. -/
def valueWithin : Nat → Scanner Json
  | 0 => simpleValue
  | depth + 1 => do
    if ← skip ['['] then list <$> items (spaced (valueWithin depth)) ']'
    else if ← skip ['\x7b'] then
      let entries ← items (entry (valueWithin depth)) '\x7d'
      return record (entries.foldl (fun done (key, value) => putEntry key value done) [])
    else simpleValue

/-- Reads a text. -/
def read? (text : String) : Option Json :=
  runAll (do spaces; spaced (valueWithin maxDepth)) text.toList

/-! ### What a value says -/

mutual

/-- What a value says, whatever it was written in. -/
def datum : Json → Datum
  | null => .null
  | bool value => .bool value
  | number value => .whole value
  | fraction _ => .fraction
  | text value => .text value
  | list items => .list (datumItems items)
  | record entries => .table (datumEntries entries)

/-- What the items of a list say. -/
def datumItems : List Json → List Datum
  | [] => []
  | item :: rest => datum item :: datumItems rest

/-- What the entries of a record say. -/
def datumEntries : List (String × Json) → List (String × Datum)
  | [] => []
  | (key, value) :: rest => (key, datum value) :: datumEntries rest

end

end Interlock.Json
