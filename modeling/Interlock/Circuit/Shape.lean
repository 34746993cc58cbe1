/-
Shapes of records.

Arguments and results of methods are records of named fields.  A shape lists the fields in order;
every width is one a signal may have and no name appears twice, which the type records, so that
code given a shape has nothing left to check.
-/
import Interlock.Word

namespace Interlock

/-- One named field of a record. -/
structure Field where
  name : String
  /-- Width in bits. -/
  width : Nat
  deriving DecidableEq, Repr, Inhabited

namespace Field

/-- The text of a list of fields, as messages show it. -/
def listText (fields : List Field) : String :=
  "\x7b" ++ ", ".intercalate (fields.map fun f => f.name ++ ": " ++ toString f.width) ++ "\x7d"

/-- Fields that describe a record. -/
def Valid (fields : List Field) : Prop :=
  (∀ f ∈ fields, Word.ValidWidth f.width) ∧ (fields.map Field.name).Nodup

end Field

/-- The fields of a record. -/
structure Shape where
  fields : List Field
  valid : Field.Valid fields
  deriving DecidableEq

namespace Shape

/-- The record without fields. -/
def empty : Shape := ⟨[], by simp [Field.Valid]⟩

instance : Inhabited Shape := ⟨empty⟩

/-- The number of fields. -/
def size (shape : Shape) : Nat := shape.fields.length

/-- Whether there are no fields. -/
def isEmpty (shape : Shape) : Bool := shape.fields.isEmpty

/-- The bits of all fields together. -/
def width (shape : Shape) : Nat :=
  shape.fields.foldr (fun field rest => field.width + rest) 0

/-- The text of a shape, as messages show it. -/
def text (shape : Shape) : String := Field.listText shape.fields

/-- The position of a field, counted from 0. -/
def position? (shape : Shape) (name : String) : Option Nat :=
  shape.fields.findIdx? (·.name == name)

/-- The field of a name. -/
def field? (shape : Shape) (name : String) : Option Field :=
  shape.fields.find? (·.name == name)

end Shape

end Interlock
