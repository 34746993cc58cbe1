/-
JSON values and their texts.

A record keeps its entries in the order in which they were put in; `sorted` puts them in the
order of their keys, at every depth, the last of equal keys taking the place of the others.  There
is a text without blanks and one with a line for every entry.
-/
import Interlock.Ascending
import Interlock.Text.Binary64

namespace Interlock

/-- A JSON value.  Whole numbers and fractions are apart, also where they are equal. -/
inductive Json where
  | null
  | bool (value : Bool)
  | number (value : Int)
  | fraction (value : Binary64)
  | text (value : String)
  | list (items : List Json)
  | record (entries : List (String × Json))
  deriving Inhabited

namespace Json

/-- A number that counts something. -/
def count (n : Nat) : Json := number n

/-- A list of texts. -/
def texts (items : List String) : Json := list (items.map text)

/-- A text, or null. -/
def text? (value : Option String) : Json := (value.map text).getD null

/-! ### Characters -/

/-- A character number in four hexadecimal digits. -/
def hexDigits (code : Nat) : List Char :=
  let digits := Nat.toDigits 16 code
  List.replicate (4 - digits.length) '0' ++ digits

/-- A character inside a quoted text.  Quotes, backslashes and control characters are written with
a backslash. -/
def quoteChar (c : Char) : List Char :=
  match c with
  | '"' => ['\\', '"']
  | '\\' => ['\\', '\\']
  | '\n' => ['\\', 'n']
  | '\r' => ['\\', 'r']
  | '\t' => ['\\', 't']
  | '\x08' => ['\\', 'b']
  | '\x0c' => ['\\', 'f']
  | c => if c.toNat < 32 then ['\\', 'u'] ++ hexDigits c.toNat else [c]

/-- A text in quotes. -/
def quote (text : String) : String :=
  "\"" ++ String.ofList (text.toList.flatMap quoteChar) ++ "\""

/-! ### Texts -/

mutual

/-- The text without blanks. -/
def compact : Json → String
  | null => "null"
  | bool value => if value then "true" else "false"
  | number value => toString value
  | fraction value => value.text
  | text value => quote value
  | list items => "[" ++ ",".intercalate (compactItems items) ++ "]"
  | record entries => "\x7b" ++ ",".intercalate (compactEntries entries) ++ "\x7d"

/-- The texts of the items of a list. -/
def compactItems : List Json → List String
  | [] => []
  | item :: rest => compact item :: compactItems rest

/-- The texts of the entries of a record. -/
def compactEntries : List (String × Json) → List String
  | [] => []
  | (key, value) :: rest => (quote key ++ ":" ++ compact value) :: compactEntries rest

end

/-- The start of a line at a depth: two blanks for each level. -/
def indent (depth : Nat) : String := String.ofList (List.replicate (2 * depth) ' ')

/-- Lines between brackets, the lines one level deeper than the brackets. -/
def block (opening closing : String) (depth : Nat) (lines : List String) : String :=
  if lines.isEmpty then opening ++ closing
  else
    opening ++ "\n" ++ ",\n".intercalate (lines.map (indent (depth + 1) ++ ·)) ++ "\n" ++
      indent depth ++ closing

mutual

/-- The text with a line for every item and entry, for a value at a depth. -/
def prettyAt (depth : Nat) : Json → String
  | list items => block "[" "]" depth (prettyItems (depth + 1) items)
  | record entries => block "\x7b" "\x7d" depth (prettyEntries (depth + 1) entries)
  | null => compact null
  | bool value => compact (bool value)
  | number value => compact (number value)
  | fraction value => compact (fraction value)
  | text value => compact (text value)

/-- The texts of the items of a list. -/
def prettyItems (depth : Nat) : List Json → List String
  | [] => []
  | item :: rest => prettyAt depth item :: prettyItems depth rest

/-- The texts of the entries of a record. -/
def prettyEntries (depth : Nat) : List (String × Json) → List String
  | [] => []
  | (key, value) :: rest =>
    (quote key ++ ": " ++ prettyAt depth value) :: prettyEntries depth rest

end

/-- The text with a line for every item and entry. -/
def pretty (value : Json) : String := prettyAt 0 value

/-! ### Order of keys -/

/-- Puts an entry in the place of its key; what was there before is dropped. -/
def putEntry (key : String) (value : Json) : List (String × Json) → List (String × Json)
  | [] => [(key, value)]
  | (k, v) :: rest =>
    if textLt key k then (key, value) :: (k, v) :: rest
    else if textLt k key then (k, v) :: putEntry key value rest
    else (key, value) :: rest

mutual

/-- The same value with all records in the order of their keys. -/
def sorted : Json → Json
  | list items => list (sortedItems items)
  | record entries => record (sortedEntries [] entries)
  | null => null
  | bool value => bool value
  | number value => number value
  | fraction value => fraction value
  | text value => text value

/-- The items of a list with all records in order. -/
def sortedItems : List Json → List Json
  | [] => []
  | item :: rest => sorted item :: sortedItems rest

/-- Puts entries in order, among those put there before. -/
def sortedEntries (done : List (String × Json)) : List (String × Json) → List (String × Json)
  | [] => done
  | (key, value) :: rest => sortedEntries (putEntry key (sorted value) done) rest

end

end Json

end Interlock
