/-
Where the ways back from a node end.

A node waits for the nodes that it reads, these wait for those that they read, and so on.  A node
rests on some nodes if every way back from it comes to an end, at the latest at one of these, and
none ends at a wire that is still to be driven, unless it is one of these.

Only undriven wires change while a circuit grows, so what rests on something does so ever after.  A
wire can therefore be driven by whatever rests on nodes that do not wait for the wire, and no loop is
closed, however much has been appended in between.  When every node of a circuit rests on nothing at
all, there is an order of evaluation.
-/
import Mathlib.Data.Set.Basic
import Mathlib.Logic.Relation
import Interlock.Proofs.Circuit.Acyclic
import Interlock.Proofs.Circuit.WellFormed

namespace Interlock

/-- Whether a gate is a wire that nothing drives. -/
def Gate.isUndriven : Gate → Bool
  | wire _ none => true
  | _ => false

theorem Gate.isUndriven_iff {gate : Gate} :
    gate.isUndriven = true ↔ ∃ name, gate = .wire name none := by
  cases gate with
  | wire name driver => cases driver <;> simp [isUndriven]
  | _ => simp [isUndriven]

namespace Circuit

variable {c c' : Circuit} {given given' : Set NodeId} {id : NodeId} {node : Node}

/-! ### Undriven wires -/

/-- The node is a wire that nothing drives. -/
def Undriven (c : Circuit) (id : NodeId) : Prop :=
  ∃ w name, c.nodes[id]? = some ⟨w, .wire name none⟩

instance (c : Circuit) (id : NodeId) : Decidable (c.Undriven id) :=
  decidable_of_iff (c.nodes[id]?.any (·.gate.isUndriven) = true) <| by
    rw [Option.any_eq_true]
    constructor
    · rintro ⟨⟨w, gate⟩, hid, hgate⟩
      obtain ⟨name, rfl⟩ := Gate.isUndriven_iff.mp hgate
      exact ⟨w, name, hid⟩
    · rintro ⟨w, name, hid⟩
      exact ⟨_, hid, rfl⟩

theorem Undriven.lt_size (h : c.Undriven id) : id < c.size := by
  obtain ⟨w, name, hid⟩ := h
  exact (Array.getElem?_eq_some_iff.mp hid).1

theorem Undriven.push (h : c.Undriven id) (node : Node) : Undriven ⟨c.nodes.push node⟩ id := by
  obtain ⟨w, name, hid⟩ := h
  obtain ⟨hlt, -⟩ := Array.getElem?_eq_some_iff.mp hid
  exact ⟨w, name, by rw [Array.getElem?_push_lt hlt, ← hid, Array.getElem?_eq_getElem hlt]⟩

/-- Driving one wire leaves the others as they are. -/
theorem Undriven.drive (h : c.Undriven id) {target : NodeId} (hne : id ≠ target) (driven : Node) :
    Undriven ⟨c.nodes.setIfInBounds target driven⟩ id := by
  obtain ⟨w, name, hid⟩ := h
  exact ⟨w, name, by rw [← hid]; exact Array.getElem?_setIfInBounds_ne hne.symm⟩

/-- A wire that is undriven in the end was undriven all along. -/
theorem Undriven.of_le (h : c'.Undriven id) (hle : c ≤ c') (hid : id < c.size) :
    c.Undriven id := by
  obtain ⟨w, name, hnode'⟩ := h
  obtain ⟨node', hnode, hbecomes⟩ := hle id _ (Array.getElem?_eq_getElem hid)
  rw [hnode'] at hnode
  cases hnode
  generalize hold : c.nodes[id] = old at hbecomes
  cases hbecomes
  exact ⟨w, name, by rw [← hold]; exact Array.getElem?_eq_getElem hid⟩

/-- An undriven wire reads nothing. -/
theorem Undriven.not_reads (h : c.Undriven id) (o : NodeId) : ¬ c.Reads o id := by
  obtain ⟨w, name, hid⟩ := h
  rw [Reads, operandsOf_of_node hid]
  exact List.not_mem_nil

/-! ### Resting -/

/-- Every way back from the node ends, at the latest at one of the nodes given. -/
inductive Rests (c : Circuit) (given : Set NodeId) : NodeId → Prop
  | given {id : NodeId} (h : id ∈ given) : Rests c given id
  | node {id : NodeId} {node : Node} (hnode : c.nodes[id]? = some node)
      (hdriven : ∀ name, node.gate ≠ .wire name none)
      (hoperands : ∀ o ∈ node.gate.operands, Rests c given o) : Rests c given id

/-- What rests on something goes on resting on it. -/
theorem Rests.mono (h : c.Rests given id) (hle : c ≤ c') : c'.Rests given id := by
  induction h with
  | given h => exact .given h
  | node hnode hdriven _ ih => exact .node (node_of_le hle hnode hdriven) hdriven ih

/-- The nodes given may rest on others. -/
theorem Rests.trans (h : c.Rests given id) (hgiven : ∀ w ∈ given, c.Rests given' w) :
    c.Rests given' id := by
  induction h with
  | given h => exact hgiven _ h
  | node hnode hdriven _ ih => exact .node hnode hdriven ih

theorem Rests.weaken (h : c.Rests ∅ id) : c.Rests given id := h.trans nofun

/-- An undriven wire rests on nothing but itself. -/
theorem Rests.mem_of_undriven (h : c.Rests given id) (hid : c.Undriven id) : id ∈ given := by
  cases h with
  | given h => exact h
  | node hnode hdriven _ =>
      obtain ⟨w, name, hwire⟩ := hid
      rw [hwire] at hnode
      cases hnode
      exact absurd rfl (hdriven name)

/-- A node appended to a circuit rests on what its operands rest on. -/
theorem rests_push (hdriven : ∀ name, node.gate ≠ .wire name none)
    (hoperands : ∀ o ∈ node.gate.operands, c.Rests given o) :
    Rests ⟨c.nodes.push node⟩ given c.size :=
  .node Array.getElem?_push_size hdriven fun o ho => (hoperands o ho).mono (c.le_push node)

/-- A wire that is driven rests on what its driver rests on. -/
theorem rests_drive {target source : NodeId} {w : Nat} {name : String}
    (htarget : c.nodes[target]? = some ⟨w, .wire name none⟩) (hsource : c.Rests given source) :
    Rests ⟨c.nodes.setIfInBounds target ⟨w, .wire name (some source)⟩⟩ given target := by
  obtain ⟨hlt, -⟩ := Array.getElem?_eq_some_iff.mp htarget
  refine .node (Array.getElem?_setIfInBounds_self_of_lt hlt) (by simp) fun o ho => ?_
  obtain rfl : o = source := by simpa [Gate.operands] using ho
  exact hsource.mono (le_drive htarget)

/-! ### Resting and waiting -/

/-- What rests on undriven wires does not wait for itself. -/
theorem Rests.acc (h : c.Rests given id) (hgiven : ∀ w ∈ given, c.Undriven w) :
    Acc c.Reads id := by
  induction h with
  | given h => exact .intro _ fun o ho => absurd ho ((hgiven _ h).not_reads o)
  | node hnode _ _ ih =>
      refine .intro _ fun o ho => ih o ?_
      rwa [Reads, operandsOf_of_node hnode] at ho

/-- What does not wait for itself rests on the undriven wires. -/
theorem WellFormed.rests_of_acc (h : c.WellFormed) (hgiven : ∀ w, c.Undriven w → w ∈ given)
    (hacc : Acc c.Reads id) : id < c.size → c.Rests given id := by
  induction hacc with
  | intro id _ ih =>
      intro hid
      have hnode : c.nodes[id]? = some c.nodes[id] := Array.getElem?_eq_getElem hid
      by_cases hwire : ∃ name, c.nodes[id].gate = .wire name none
      · obtain ⟨name, hgate⟩ := hwire
        exact .given (hgiven id ⟨c.nodes[id].width, name, by rw [hnode, ← hgate]⟩)
      · refine .node hnode (fun name hgate => hwire ⟨name, hgate⟩) fun o ho => ?_
        have hreads : c.Reads o id := by rwa [Reads, operandsOf_of_node hnode]
        exact ih o hreads ((h.fits id _ hnode).operand_lt ho)

/-- A node rests without those of the nodes given that it does not wait for. -/
theorem Rests.of_independent (h : c.Rests given id)
    (hfree : ∀ w ∈ given, w ∈ given' ∨ ¬ Relation.ReflTransGen c.Reads w id) :
    c.Rests given' id := by
  induction h with
  | given h => exact (hfree _ h).elim .given fun hwaits => absurd .refl hwaits
  | node hnode hdriven _ ih =>
      refine .node hnode hdriven fun o ho => ih o ho fun w hw => (hfree w hw).imp_right ?_
      exact fun hwaits hreaches => hwaits (hreaches.tail (by rwa [Reads, operandsOf_of_node hnode]))

/-- What rests on nothing waits for no undriven wire. -/
theorem Rests.not_waits {w : NodeId} (h : c.Rests ∅ id) (hw : c.Undriven w) :
    ¬ Relation.ReflTransGen c.Reads w id := by
  induction h with
  | given h => exact absurd h (Set.notMem_empty _)
  | node hnode hdriven hoperands ih =>
      intro hreaches
      rcases hreaches.cases_tail with rfl | ⟨o, hto, hreads⟩
      · exact Set.notMem_empty _ ((Rests.node hnode hdriven hoperands).mem_of_undriven hw)
      · rw [Reads, operandsOf_of_node hnode] at hreads
        exact ih o hreads hto

/-- **There is an order of evaluation if every node rests on nothing.** -/
theorem WellFormed.exists_evaluationOrder (h : c.WellFormed)
    (hrests : ∀ id < c.size, c.Rests ∅ id) : ∃ order, c.evaluationOrder = .ok order := by
  refine Circuit.exists_evaluationOrder (fun id node hnode => ?_) fun id hid =>
    (hrests id hid).acc nofun
  refine looseEnd?_eq_none_iff.mpr ⟨fun name hgate => ?_, fun o => (h.fits id node hnode).operand_lt⟩
  obtain ⟨hid, -⟩ := Array.getElem?_eq_some_iff.mp hnode
  exact (hrests id hid).mem_of_undriven ⟨node.width, name, by rw [hnode, ← hgate]⟩

/-! ### Signals -/

/-- The node has the width and rests on the nodes given. -/
structure Signal (c : Circuit) (given : Set NodeId) (w : Nat) (id : NodeId) : Prop where
  width : c.width id = .ok w
  rests : c.Rests given id

theorem Signal.mono {w : Nat} (h : c.Signal given w id) (hle : c ≤ c') : c'.Signal given w id :=
  ⟨width_of_le hle h.width, h.rests.mono hle⟩

theorem Signal.weaken {w : Nat} (h : c.Signal ∅ w id) : c.Signal given w id :=
  ⟨h.width, h.rests.weaken⟩

end Circuit
end Interlock
