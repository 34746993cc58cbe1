/-
A copy carries the words of what it is a copy of.

Whatever can be evaluated can be evaluated as a copy, if nothing else waits for itself; and with
the same words applied to the copies of the inputs, every copy carries the word of its node.  The
induction is along the reads of the circuit that is copied: a copy reads nothing but copies, so it
does not matter what else there is.
-/
import Interlock.Proofs.Circuit.Acyclic
import Interlock.Proofs.Circuit.Copy
import Interlock.Proofs.Circuit.Solution

namespace Interlock

/-- The same words, applied to other nodes. -/
def Stimulus.moved (place : NodeId → NodeId) (stimulus : Stimulus) : Stimulus :=
  ⟨stimulus.assigned.map fun entry => (place entry.1, entry.2)⟩

namespace Copy

variable {k : Copy}

theorem operandsOf_place {i : NodeId} (hi : i < k.part.size) :
    k.whole.operandsOf (k.place i) = (k.part.operandsOf i).map k.place := by
  obtain ⟨node, hnode, hcopy⟩ := Places.copied (k := k) ⟨hi, rfl⟩
  rw [Circuit.operandsOf_of_node hnode, Circuit.operandsOf_of_node hcopy]
  exact Gate.operands_moved k.place node.gate

theorem operandsOf_lt {i o : NodeId} (ho : o ∈ k.part.operandsOf i) : o < k.part.size := by
  unfold Circuit.operandsOf at ho
  cases hnode : k.part.nodes[i]? with
  | none => simp [hnode] at ho
  | some node =>
      rw [hnode] at ho
      exact operand_lt hnode ho

/-- A copy does not wait for itself if the node does not. -/
theorem acc_place {i : NodeId} (h : Acc k.part.Reads i) :
    i < k.part.size → Acc k.whole.Reads (k.place i) := by
  induction h with
  | intro i _ ih =>
      intro hi
      refine .intro _ fun o ho => ?_
      rw [Circuit.Reads, operandsOf_place hi] at ho
      obtain ⟨source, hsource, rfl⟩ := List.mem_map.mp ho
      exact ih source hsource (operandsOf_lt hsource)

/-- What can be evaluated can be evaluated as a copy, if nothing else waits for itself. -/
theorem exists_evaluator {evaluator : Evaluator}
    (h : Evaluator.ofCircuit k.part = .ok evaluator)
    (hdriven : ∀ id ∈ k.others, ∀ w name, k.whole.nodes[id]? ≠ some ⟨w, .wire name none⟩)
    (hacc : ∀ id ∈ k.others, Acc k.whole.Reads id) :
    ∃ evaluator', Evaluator.ofCircuit k.whole = .ok evaluator' := by
  have horder := evaluator.ordered
  rw [Evaluator.circuit_of_ofCircuit h] at horder
  have hpart := (Circuit.evaluationOrder_ordered horder).acc
  suffices hwhole : ∃ order, k.whole.evaluationOrder = .ok order from
    Evaluator.exists_of_evaluationOrder hwhole.choose_spec
  refine Circuit.exists_evaluationOrder (fun id node hnode => ?_) fun id hid => ?_
  · refine Circuit.looseEnd?_eq_none_iff.mpr ⟨fun name hgate => ?_, fun o ho => ?_⟩
    · obtain ⟨width, gate⟩ := node
      obtain rfl : gate = .wire name none := hgate
      rcases k.covered id (Array.getElem?_eq_some_iff.mp hnode).1 with hother | ⟨i, hi, rfl⟩
      · exact hdriven id hother width name hnode
      · obtain ⟨⟨width', gate⟩, hi, hcopy⟩ := Places.copied (k := k) ⟨hi, rfl⟩
        rw [hnode] at hcopy
        have hgate := (Node.mk.inj (Option.some.inj hcopy)).2
        exact Circuit.driven_of_evaluationOrder horder hi name (Gate.eq_of_moved_eq hgate.symm)
    · exact (k.wholeWell.fits id node hnode).operand_lt ho
  · rcases k.covered id hid with hother | ⟨i, hi, rfl⟩
    · exact hacc id hother
    · exact acc_place (hpart i) hi

/-- A copy carries the word of its node. -/
theorem word_place {applied applied' word word' : NodeId → Nat}
    (hacc : ∀ i, Acc k.part.Reads i)
    (hword : ∀ (id : NodeId) (node : Node), k.part.nodes[id]? = some node →
      word id = k.part.nodeWord applied word id node)
    (hword' : ∀ (id : NodeId) (node : Node), k.whole.nodes[id]? = some node →
      word' id = k.whole.nodeWord applied' word' id node)
    (happlied : ∀ i < k.part.size, applied' (k.place i) = applied i) :
    ∀ i < k.part.size, word' (k.place i) = word i := by
  intro i
  induction hacc i with
  | intro i _ ih =>
      intro hi
      obtain ⟨node, hnode, hcopy⟩ := Places.copied (k := k) ⟨hi, rfl⟩
      rw [hword i node hnode, hword' _ _ hcopy]
      refine nodeWord_moved k hnode (happlied i hi) fun o ho => ?_
      rw [← Circuit.operandsOf_of_node hnode] at ho
      exact ih o ho (operandsOf_lt ho)

theorem word_moved {stimulus : Stimulus}
    (hassigned : ∀ entry ∈ stimulus.assigned, entry.1 < k.part.size) {i : NodeId}
    (hi : i < k.part.size) : (stimulus.moved k.place).word (k.place i) = stimulus.word i := by
  obtain ⟨assigned⟩ := stimulus
  unfold Stimulus.moved Stimulus.word
  dsimp only at hassigned ⊢
  congr 1
  induction assigned with
  | nil => rfl
  | cons entry rest ih =>
      obtain ⟨hentry, hrest⟩ := List.forall_mem_cons.mp hassigned
      obtain ⟨input, word⟩ := entry
      rw [List.map_cons, List.lookup_cons, List.lookup_cons, ih hrest]
      have hsame : (k.place i == k.place input) = (i == input) := by
        rw [Bool.eq_iff_iff, beq_iff_eq, beq_iff_eq]
        exact ⟨fun heq => k.injective i hi input hentry heq, fun heq => by rw [heq]⟩
      rw [hsame]

theorem isInput_place {i : NodeId} (h : k.part.isInput i = true) :
    i < k.part.size ∧ k.whole.isInput (k.place i) = true := by
  unfold Circuit.isInput at *
  split at h
  · rename_i w name hnode
    rw [k.copied i _ hnode]
    exact ⟨(Array.getElem?_eq_some_iff.mp hnode).1, rfl⟩
  · cases h

/-- **With the same words applied to the copies of the inputs, every copy carries the word of its
node.** -/
theorem evaluate_moved {evaluator evaluator' : Evaluator}
    (h : Evaluator.ofCircuit k.part = .ok evaluator)
    (h' : Evaluator.ofCircuit k.whole = .ok evaluator') {stimulus : Stimulus}
    {valuation : Valuation} (heval : evaluator.evaluate stimulus = .ok valuation) :
    ∃ valuation', evaluator'.evaluate (stimulus.moved k.place) = .ok valuation' ∧
      ∀ i < k.part.size, valuation'.word (k.place i) = valuation.word i := by
  have hcircuit := Evaluator.circuit_of_ofCircuit h
  have hcircuit' := Evaluator.circuit_of_ofCircuit h'
  have hinputs : ∀ entry ∈ stimulus.assigned, k.part.isInput entry.1 = true := by
    intro entry hentry
    by_contra hnot
    rw [← hcircuit] at hnot
    obtain ⟨fault, hfault⟩ :=
      Evaluator.evaluate_eq_error_iff.mpr ⟨entry, hentry, Bool.eq_false_iff.mpr hnot⟩
    rw [heval] at hfault
    cases hfault
  have hinputs' : ∀ entry ∈ (stimulus.moved k.place).assigned,
      evaluator'.circuit.isInput entry.1 = true := by
    intro entry hentry
    obtain ⟨old, hold, rfl⟩ := List.mem_map.mp hentry
    rw [hcircuit']
    exact (isInput_place (hinputs old hold)).2
  obtain ⟨valuation', heval'⟩ : ∃ valuation',
      evaluator'.evaluate (stimulus.moved k.place) = .ok valuation' :=
    ⟨_, Evaluator.evaluate_eq_ok hinputs'⟩
  have horder := Circuit.evaluationOrder_ordered evaluator.ordered
  have hagrees := Evaluator.evaluate_agrees heval
  have hagrees' := Evaluator.evaluate_agrees heval'
  rw [hcircuit] at horder hagrees
  rw [hcircuit'] at hagrees'
  refine ⟨valuation', heval', word_place horder.acc hagrees hagrees' fun i hi => ?_⟩
  exact word_moved (fun entry hentry => (isInput_place (hinputs entry hentry)).1) hi

end Copy

end Interlock
