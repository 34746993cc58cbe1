/-
Keys and values.

An array may go over several lines, with comments; a table in braces stays on one line.  Values
nest to a limited depth, and so many names a key may have.
-/
import Interlock.Toml.Quotation
import Interlock.Toml.Scalar
import Interlock.Toml.Tree

namespace Interlock.Toml

open Scanner

/-- The depth to which values may nest, and the number of names that a key may have. -/
def maxDepth : Nat := 79

/-! ### Between values -/

/-- A comment, up to the end of its line. -/
def comment : Scanner Unit := do
  expect '#'
  let _ ← takeWhile isPlain

/-- One blank, line end or comment, if there is one. -/
def gap : Scanner (Option Unit) := do
  match (← ahead).head? with
  | some ' ' | some '\t' | some '\n' =>
    let _ ← next
    return some ()
  | some '#' =>
    comment
    return some ()
  | _ => return none

/-- All blanks, line ends and comments. -/
def gaps : Scanner Unit := do
  let _ ← collect gap

/-! ### Keys -/

/-- Whether a character may stand in a name without quotes. -/
def isNameChar (c : Char) : Bool := c.isAlphanum || c == '_' || c == '-'

/-- A name, with the blanks around it. -/
def keyName : Scanner String := do
  blanks
  let name ← match (← ahead).head? with
    | some '"' => lineQuotation '"'
    | some '\'' => lineQuotation '\''
    | _ => do
      let name ← takeWhile isNameChar
      if name.isEmpty then refuse
      pure (String.ofList name)
  blanks
  return name

/-- The next name of a key, after a dot. -/
def nextName : Scanner (Option String) := do
  if ← skip ['.'] then some <$> keyName else return none

/-- A key. -/
def key : Scanner Key := do
  let first ← keyName
  let rest ← collect nextName
  if maxDepth ≤ rest.length then refuse
  return Key.ofNames first rest

/-- A key and its value, with the blanks after it. -/
def entry (value : Scanner Datum) : Scanner (Key × Datum) := do
  let key ← key
  expect '='
  blanks
  let datum ← value
  blanks
  return (key, datum)

/-! ### Values -/

/-- A value that holds no others. -/
def simpleValue : Scanner Datum := do
  match (← ahead).head? with
  | some '"' => Datum.text <$> quotation '"'
  | some '\'' => Datum.text <$> quotation '\''
  | _ => scalar

/-- The next item of an array, and none at the end.  A comma may follow the last one. -/
def arrayItem (value : Scanner Datum) : Scanner (Option Datum) := do
  gaps
  if ← skip [']'] then return none
  let datum ← value
  gaps
  if !(← skip [',']) then
    if !(← startsWith [']']) then refuse
  return some datum

/-- An array. -/
def array (value : Scanner Datum) : Scanner Datum := do
  expect '['
  return .list (← collect (arrayItem value))

/-- The next entry of a table in braces, after a comma. -/
def nextEntry (value : Scanner Datum) : Scanner (Option (Key × Datum)) := do
  if ← skip [','] then some <$> entry value else return none

/-- The entries of a table in braces, up to the closing one. -/
def braceEntries (value : Scanner Datum) : Scanner (List (Key × Datum)) := do
  blanks
  if ← skip ['\x7d'] then return []
  let first ← entry value
  let rest ← collect (nextEntry value)
  expect '\x7d'
  return first :: rest

/-- A table in braces. -/
def braceTable (value : Scanner Datum) : Scanner Datum := do
  expect '\x7b'
  let entries ← accept ((← braceEntries value).foldlM
    (fun entries (key, datum) => Entries.assign key datum entries) [])
  return .table (Entries.data entries)

/-- A value in which values nest to some depth. -/
def valueWithin : Nat → Scanner Datum
  | 0 => simpleValue
  | depth + 1 => do
    match (← ahead).head? with
    | some '[' => array (valueWithin depth)
    | some '\x7b' => braceTable (valueWithin depth)
    | _ => simpleValue

/-- A value. -/
def value : Scanner Datum := valueWithin maxDepth

end Interlock.Toml
