/-
Checked shapes, and bundles: fields with a node bound to each.

A bundle is kept as one list of pairs, so that it cannot have more nodes than fields or fewer.
Whether the bound nodes exist and have the widths of their fields is for the circuit to say.
-/
import Interlock.Circuit.Fault

namespace Interlock

namespace Field

/-- What is wrong with the first bad field, given the names before it: its width, or else its
name. -/
def firstFault? (seen : List String) : List Field → Option Circuit.Fault
  | [] => none
  | f :: rest =>
    if ¬ Word.ValidWidth f.width then some (.invalidWidth f.width)
    else if f.name ∈ seen then some (.duplicateName f.name)
    else firstFault? (f.name :: seen) rest

theorem valid_of_firstFault?_eq_none {seen : List String} {fields : List Field}
    (h : firstFault? seen fields = none) :
    Valid fields ∧ ∀ f ∈ fields, f.name ∉ seen := by
  induction fields generalizing seen with
  | nil => simp [Valid]
  | cons f rest ih =>
    simp only [firstFault?] at h
    split at h
    · simp at h
    split at h
    · simp at h
    next hwidth hseen =>
      obtain ⟨⟨hwidths, hnames⟩, hfresh⟩ := ih h
      refine ⟨⟨?_, ?_⟩, ?_⟩
      · intro g hg
        rcases List.mem_cons.1 hg with rfl | hg
        · exact Decidable.not_not.1 hwidth
        · exact hwidths g hg
      · simp only [List.map_cons, List.nodup_cons]
        refine ⟨?_, hnames⟩
        intro hmem
        obtain ⟨g, hg, hname⟩ := List.mem_map.1 hmem
        exact hfresh g hg (by simp [hname])
      · intro g hg
        rcases List.mem_cons.1 hg with rfl | hg
        · exact hseen
        · exact fun hmem => hfresh g hg (List.mem_cons_of_mem _ hmem)

end Field

/-- The shape with the given fields, if they describe a record. -/
def Shape.ofFields (fields : List Field) : Except Circuit.Fault Shape :=
  match h : Field.firstFault? [] fields with
  | some fault => .error fault
  | none => .ok ⟨fields, (Field.valid_of_firstFault?_eq_none h).1⟩

/-- A record of signals: its fields in order, each with the node that carries it. -/
structure Bundle where
  entries : List (Field × NodeId)
  deriving DecidableEq, Repr

namespace Bundle

/-- The record without fields. -/
def empty : Bundle := ⟨[]⟩

instance : Inhabited Bundle := ⟨empty⟩

/-- The fields, in order. -/
def fields (bundle : Bundle) : List Field := bundle.entries.map Prod.fst

/-- The nodes, in the order of their fields. -/
def nodes (bundle : Bundle) : List NodeId := bundle.entries.map Prod.snd

/-- Whether there are no fields. -/
def isEmpty (bundle : Bundle) : Bool := bundle.entries.isEmpty

/-- The node at a position. -/
def nodeAt (bundle : Bundle) (position : Nat) : NodeId := bundle.nodes.getD position 0

/-- Binds nodes to fields, one each. -/
def ofNodes (fields : List Field) (nodes : List NodeId) : Except Circuit.Fault Bundle :=
  if fields.length = nodes.length then .ok ⟨fields.zip nodes⟩
  else .error (.arityMismatch fields.length nodes.length)

/-- The node of a named field. -/
def node (bundle : Bundle) (name : String) : Except Circuit.Fault NodeId :=
  match bundle.entries.find? (·.1.name == name) with
  | some entry => .ok entry.2
  | none => .error (.unknownField name)

/-- Refuses a bundle that has other fields than expected. -/
def expectFields (bundle : Bundle) (expected : List Field) : Except Circuit.Fault Unit :=
  if bundle.fields = expected then .ok () else .error (.shapeMismatch expected bundle.fields)

@[simp] theorem length_nodes (bundle : Bundle) :
    bundle.nodes.length = bundle.fields.length := by
  simp [nodes, fields]

end Bundle

end Interlock
