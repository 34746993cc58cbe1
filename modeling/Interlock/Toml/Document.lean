/-
Documents: lines that give values to keys, and headers that say to which table keys belong.

Reading goes in two steps.  The text is taken apart into statements; then the statements fill the
tables, in the order in which they stand.
-/
import Interlock.Toml.Value

namespace Interlock.Toml

open Scanner

/-- What a line says. -/
inductive Statement where
  | assign (key : Key) (datum : Datum)
  /-- The header of a table. -/
  | table (key : Key)
  /-- The header of the next element of a series of tables. -/
  | element (key : Key)

/-! ### Taking a text apart -/

/-- The end of a line, or of the text. -/
def lineEnd : Scanner Unit := do
  blanks
  if ← startsWith ['#'] then comment
  if !(← ahead).isEmpty then expect '\n'

/-- The statement at the front. -/
def statement : Scanner Statement := do
  if ← skip ['[', '['] then
    let key ← key
    expect ']'
    expect ']'
    return .element key
  else if ← skip ['['] then
    let key ← key
    expect ']'
    return .table key
  else
    let (key, datum) ← entry value
    return .assign key datum

/-- The next statement, and none at the end of the text. -/
def nextStatement : Scanner (Option Statement) := do
  gaps
  if (← ahead).isEmpty then return none
  let statement ← statement
  lineEnd
  return some statement

/-- A text in which a carriage return before a line feed is left out. -/
def unifyLineEnds : List Char → List Char
  | '\r' :: '\n' :: rest => '\n' :: unifyLineEnds rest
  | c :: rest => c :: unifyLineEnds rest
  | [] => []

/-- A text without the mark of byte order that it may start with. -/
def dropMark : List Char → List Char
  | '\ufeff' :: rest => rest
  | text => text

/-- The statements of a text. -/
def statements? (text : String) : Option (List Statement) :=
  runAll (collect nextStatement) (unifyLineEnds (dropMark text.toList))

/-! ### Filling the tables -/

/-- A document that is partly read. -/
structure Draft where
  entries : Entries
  /-- The names that lead to the table of the last header. -/
  header : List String

namespace Draft

/-- Nothing was read. -/
def empty : Draft := ⟨[], []⟩

/-- What a document is after one more statement. -/
def add? (draft : Draft) : Statement → Option Draft
  | .assign key datum => do
    let entries ← Entries.descend false (fun _ => Entries.assign key datum) draft.header .declared
      draft.entries
    return { draft with entries }
  | .table key => do return ⟨← Entries.declareTable key draft.entries, key.names⟩
  | .element key => do return ⟨← Entries.declareElement key draft.entries, key.names⟩

end Draft

/-- Reads a document. -/
def read? (text : String) : Option Datum := do
  let draft ← (← statements? text).foldlM Draft.add? Draft.empty
  return .table (Entries.data draft.entries)

end Interlock.Toml
