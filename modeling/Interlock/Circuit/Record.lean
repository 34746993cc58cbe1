/-
Requests on whole bundles: one step for every field, in the order of the fields.
-/
import Interlock.Circuit.Build

namespace Interlock.Build

/-- A bundle of the given fields, each of whose nodes comes from one request. -/
def bundle (fields : List Field) (request : Field → Build NodeId) : Build Bundle := do
  return ⟨← fields.mapM fun field => return (field, ← request field)⟩

/-- The name of a field's own signal. -/
def fieldName (owner : String) (field : Field) : String := owner ++ "." ++ field.name

/-- A wire for every field, named after the owner and the field. -/
def wires (owner : String) (fields : List Field) : Build Bundle :=
  bundle fields fun field => wire (fieldName owner field) field.width

/-- An input for every field, named after the owner and the field. -/
def inputs (owner : String) (fields : List Field) : Build Bundle :=
  bundle fields fun field => input (fieldName owner field) field.width

/-- All fields zero. -/
def zeros (fields : List Field) : Build Bundle :=
  bundle fields fun field => constant 0 field.width

/-- Binds nodes that are there already to fields, and checks their widths. -/
def bind (fields : List Field) (nodes : List NodeId) : Build Bundle := do
  let bound ← ofExcept (Bundle.ofNodes fields nodes)
  bound.entries.forM fun entry => do
    matchWidths "struct field" entry.1.width (← width entry.2)
  return bound

/-- Connects every field wire of one bundle to the same field of another. -/
def driveAll (target source : Bundle) : Build Unit := do
  ofExcept (source.expectFields target.fields)
  (target.nodes.zip source.nodes).forM fun pair => drive pair.1 pair.2

/-- Field by field, the disjunction of the bundles whose selects are high; zero if there are no
bundles. -/
def select (fields : List Field) (selects : List NodeId) (bundles : List Bundle) :
    Build Bundle := do
  if bundles.isEmpty then zeros fields
  else
    bundles.forM fun b => ofExcept (b.expectFields fields)
    return ⟨← fields.zipIdx.mapM fun (field, position) =>
      return (field, ← oneHot selects (bundles.map (·.nodeAt position)))⟩

end Interlock.Build
