/-
A circuit has an order of evaluation if nothing in it waits for itself.

The walk leaves a node out only if it leaves out a node that this one reads.  So if every way back
from a node, from what it reads to what that reads, comes to an end, the walk finds the node; and
along an order of evaluation every way back does come to an end.
-/
import Interlock.Circuit.Evaluation
import Interlock.Proofs.Circuit.Order

namespace Interlock

namespace Circuit

variable {circuit : Circuit}

/-- The second node reads the first. -/
def Reads (circuit : Circuit) (o id : NodeId) : Prop := o ∈ circuit.operandsOf id

/-- Only a node that is there reads anything. -/
theorem Reads.lt_size {o id : NodeId} (h : circuit.Reads o id) : id < circuit.size := by
  by_contra hle
  rw [Reads, operandsOf_of_size_le (Nat.le_of_not_lt hle)] at h
  cases h

/-- Where every node of a list comes after the nodes it reads, every way back from one comes to an
end. -/
theorem acc_of_earlier {order : List NodeId} (hearlier : ∀ before id after,
      order = before ++ id :: after → ∀ o ∈ circuit.operandsOf id, o ∈ before) {id : NodeId}
    (hid : id ∈ order) : Acc circuit.Reads id := by
  have hplaced : ∀ (n : Nat) (before after : List NodeId) (id : NodeId), before.length = n →
      order = before ++ id :: after → Acc circuit.Reads id := by
    intro n
    induction n using Nat.strongRecOn with
    | ind n ih =>
        intro before after id hlength hsplit
        refine .intro id fun o ho => ?_
        obtain ⟨earlier, between, rfl⟩ := List.append_of_mem (hearlier before id after hsplit o ho)
        refine ih earlier.length ?_ earlier (between ++ id :: after) o rfl (by simp [hsplit])
        rw [← hlength, List.length_append, List.length_cons]
        omega
  obtain ⟨before, after, hsplit⟩ := List.append_of_mem hid
  exact hplaced _ before after id rfl hsplit

/-- Every way back along an order of evaluation comes to an end. -/
theorem Ordered.acc {order : List NodeId} (h : circuit.Ordered order) (id : NodeId) :
    Acc circuit.Reads id := by
  by_cases hid : id < circuit.size
  · exact acc_of_earlier h.earlier ((h.mem_iff id).mpr hid)
  · exact .intro id fun o ho => absurd (Reads.lt_size ho) hid

theorem looseEnd?_eq_none_iff {node : Node} : circuit.looseEnd? node = none ↔
    (∀ name, node.gate ≠ .wire name none) ∧ ∀ o ∈ node.gate.operands, o < circuit.size := by
  have hreads : ∀ operands : List NodeId, (operands.find? (decide <| circuit.size ≤ ·)).map
      Fault.unknownNode = none ↔ ∀ o ∈ operands, o < circuit.size := by
    intro operands
    simp only [Option.map_eq_none_iff, List.find?_eq_none, decide_eq_true_eq, Nat.not_le]
  obtain ⟨width, gate⟩ := node
  unfold looseEnd?
  cases gate with
  | wire name driver =>
      cases driver with
      | none => simp
      | some driver => simp [hreads]
  | _ => simp [hreads]

/-- The walk finds what does not wait for itself. -/
theorem mem_found_of_acc (hbounded : ∀ id : NodeId, ∀ o ∈ circuit.operandsOf id, o < circuit.size)
    {id : NodeId} (h : Acc circuit.Reads id) :
    id < circuit.size → id ∈ circuit.progressEnd.found.toList := by
  have hwalk := progressEnd_walk circuit
  induction h with
  | intro id _ ih =>
      intro hid
      rw [hwalk.found_iff id hid, hwalk.waits id hid, List.count_nil, Nat.add_zero,
        waitsFor_eq_zero_iff]
      exact fun o ho => ih o ho (hbounded id o ho)

/-- **There is an order of evaluation if no wire is undriven and no node waits for itself.** -/
theorem exists_evaluationOrder
    (hends : ∀ (id : NodeId) (node : Node), circuit.nodes[id]? = some node →
      circuit.looseEnd? node = none)
    (hacc : ∀ id < circuit.size, Acc circuit.Reads id) :
    ∃ order, circuit.evaluationOrder = .ok order := by
  have hbounded : ∀ id : NodeId, ∀ o ∈ circuit.operandsOf id, o < circuit.size := by
    intro id o ho
    unfold operandsOf at ho
    cases hnode : circuit.nodes[id]? with
    | none => simp [hnode] at ho
    | some node =>
        rw [hnode] at ho
        exact (looseEnd?_eq_none_iff.mp (hends id node hnode)).2 o ho
  have hsize : circuit.progressEnd.found.size = circuit.size :=
    (progressEnd_walk circuit).size_eq_iff.mpr fun id hid =>
      mem_found_of_acc hbounded (hacc id hid) hid
  unfold evaluationOrder
  split
  · rename_i fault hfault
    obtain ⟨node, hmem, hnode⟩ := List.exists_of_findSome?_eq_some hfault
    obtain ⟨id, hid⟩ := List.mem_iff_getElem?.mp hmem
    rw [hends id node (by rwa [Array.getElem?_toList] at hid)] at hnode
    cases hnode
  · exact ⟨_, if_pos hsize⟩

/-- Where there is an order of evaluation, no wire is undriven. -/
theorem driven_of_evaluationOrder {order : List NodeId}
    (h : circuit.evaluationOrder = .ok order) {id : NodeId} {node : Node}
    (hnode : circuit.nodes[id]? = some node) (name : String) : node.gate ≠ .wire name none := by
  unfold evaluationOrder at h
  split at h
  · cases h
  · rename_i hnone
    have hmem : node ∈ circuit.nodes.toList := Array.mem_toList_iff.mpr (Array.mem_of_getElem? hnode)
    exact (looseEnd?_eq_none_iff.mp (List.findSome?_eq_none_iff.mp hnone node hmem)).1 name

end Circuit

theorem Evaluator.exists_of_evaluationOrder {circuit : Circuit} {order : List NodeId}
    (h : circuit.evaluationOrder = .ok order) : ∃ evaluator, ofCircuit circuit = .ok evaluator := by
  unfold ofCircuit
  split
  · exact ⟨_, rfl⟩
  · rename_i hfault
    rw [h] at hfault
    cases hfault

end Interlock
