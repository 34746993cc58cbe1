/-
Tables while a document is read.

A table is filled from several places: below its own header, through the headers of tables inside
it, and through keys with dots.  How it came to be decides what may still be done to it; a value
is given to a key once, and the tables inside a value are closed.
-/
import Interlock.Text.Datum

namespace Interlock.Toml

/-- How a table came to be. -/
inductive Origin where
  /-- It has a header, or is an element of a series, or is the whole document. -/
  | declared
  /-- The header of a table inside it was read. -/
  | implied
  /-- A key with dots was read. -/
  | dotted
  deriving DecidableEq, Repr

/-- What a key stands for. -/
inductive Item where
  | value (datum : Datum)
  | table (origin : Origin) (entries : List (String × Item))
  /-- A series of tables, each with a header: the last one, and those before it, latest first. -/
  | series (last : List (String × Item)) (before : List (List (String × Item)))
  deriving Inhabited

/-- The entries of a table. -/
abbrev Entries := List (String × Item)

/-- A key: the names that lead to a table, and the name in that table. -/
structure Key where
  path : List String
  name : String
  deriving DecidableEq, Repr

namespace Key

/-- The key of one or more names. -/
def ofNames (first : String) : List String → Key
  | [] => ⟨[], first⟩
  | second :: rest =>
    let key := ofNames second rest
    { key with path := first :: key.path }

/-- All names of a key. -/
def names (key : Key) : List String := key.path ++ [key.name]

end Key

namespace Entries

/-- Changes what a name stands for. -/
def alter (name : String) (change : Option Item → Option Item) : Entries → Option Entries
  | [] => (change none).map fun item => [(name, item)]
  | (known, item) :: rest =>
    if known == name then (change (some item)).map fun item => (known, item) :: rest
    else (alter name change rest).map ((known, item) :: ·)

/-- Changes the table that a name stands for, which is made if there is none.  Of a series the
last element is changed.  A key with dots does not reach into a table that has a header. -/
def enter (dotted : Bool) (change : Origin → Entries → Option Entries) :
    Option Item → Option Item
  | none =>
    let origin := if dotted then .dotted else .implied
    (change origin []).map (.table origin)
  | some (.value _) => none
  | some (.series last before) => (change .declared last).map (.series · before)
  | some (.table origin entries) =>
    if dotted && origin == .declared then none else (change origin entries).map (.table origin)

/-- Changes the table at the end of a path. -/
def descend (dotted : Bool) (change : Origin → Entries → Option Entries) :
    List String → Origin → Entries → Option Entries
  | [], origin, entries => change origin entries
  | name :: path, _, entries => alter name (enter dotted (descend dotted change path)) entries

/-- Gives a value to a name that stands for nothing yet. -/
def insertNew (name : String) (datum : Datum) : Entries → Option Entries :=
  alter name fun
    | none => some (.value datum)
    | some _ => none

/-- Gives a value to a key.  A key with dots only adds to tables that such keys made. -/
def assign (key : Key) (datum : Datum) (entries : Entries) : Option Entries :=
  descend true
    (fun origin entries =>
      if (origin == .dotted) == key.path.isEmpty then none
      else insertNew key.name datum entries)
    key.path .declared entries

/-- Gives a table its header.  It had none, and no key with dots added to it. -/
def declareTable (key : Key) (entries : Entries) : Option Entries :=
  descend false
    (fun _ => alter key.name fun
      | none => some (.table .declared [])
      | some (.table .implied entries) => some (.table .declared entries)
      | some _ => none)
    key.path .declared entries

/-- Starts the next element of a series. -/
def declareElement (key : Key) (entries : Entries) : Option Entries :=
  descend false
    (fun _ => alter key.name fun
      | none => some (.series [] [])
      | some (.series last before) => some (.series [] (last :: before))
      | some _ => none)
    key.path .declared entries

end Entries

/-! ### The values that are left in the end -/

mutual

/-- The value that an item is in the end. -/
def Item.datum : Item → Datum
  | .value datum => datum
  | .table _ entries => .table (Entries.data entries)
  | .series last before =>
    .list (Datum.table (Entries.data last) :: Entries.seriesData before).reverse

/-- The values of the entries of a table. -/
def Entries.data : List (String × Item) → List (String × Datum)
  | [] => []
  | (name, item) :: rest => (name, item.datum) :: Entries.data rest

/-- The tables of a series. -/
def Entries.seriesData : List (List (String × Item)) → List Datum
  | [] => []
  | entries :: rest => .table (Entries.data entries) :: Entries.seriesData rest

end

end Interlock.Toml
