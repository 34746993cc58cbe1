/-
Data: what a written document holds, whatever it is written in.

Documents differ in how they write things down and in what they can write.  Whoever reads a
document for its meaning sees one kind of value.
-/
namespace Interlock

/-- A value that was written down. -/
inductive Datum where
  | null
  | bool (value : Bool)
  /-- A whole number. -/
  | whole (value : Int)
  /-- A number that is not whole, of which nothing more is known. -/
  | fraction
  | text (value : String)
  /-- A date, a time of day, or both, in the order from years to fractions of seconds. -/
  | moment (value : String)
  | list (items : List Datum)
  /-- A table; its keys are distinct. -/
  | table (entries : List (String × Datum))
  deriving Inhabited

namespace Datum

/-- The key under which a moment is found where a table is looked for. -/
def momentKey : String := "$__toml_private_datetime"

/-- The entries of a table.  A moment counts as a table that has its text as the only entry. -/
def entries? : Datum → Option (List (String × Datum))
  | table entries => some entries
  | moment value => some [(momentKey, text value)]
  | _ => none

end Datum

end Interlock
