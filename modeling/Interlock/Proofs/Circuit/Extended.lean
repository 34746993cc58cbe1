/-
Circuits that are extended.

In a circuit that can be evaluated every wire has its driver.  So whatever is requested of it
afterwards, answered or refused, its nodes stay the nodes that they are, and other nodes come after
them.  Then they also carry the words that they carried: a node computes its word of the words of
the nodes that it reads, and an old node reads old nodes.

The order in which the extended circuit is evaluated need not have the old nodes first, nor have
them in their old order.  That does not matter here, since the induction is along what the old nodes
read.
-/
import Interlock.Proofs.Circuit.Acyclic
import Interlock.Proofs.Circuit.Built
import Interlock.Proofs.Circuit.Solution

namespace Interlock

namespace Circuit

variable {c c' : Circuit}

/-- The nodes of the first circuit are nodes of the second one, by the same numbers. -/
def Kept (c c' : Circuit) : Prop :=
  ∀ (id : NodeId) (node : Node), c.nodes[id]? = some node → c'.nodes[id]? = some node

/-- What can be evaluated has no wire left to drive. -/
theorem kept_of_le {order : List NodeId} (horder : c.evaluationOrder = .ok order) (hle : c ≤ c') :
    c.Kept c' :=
  fun _ _ hnode => node_of_le hle hnode (driven_of_evaluationOrder horder hnode)

theorem Kept.widthD_eq (h : c.Kept c') {id : NodeId} (hid : id < c.size) :
    c'.widthD id = c.widthD id := by
  have hnode : c.nodes[id]? = some c.nodes[id] := Array.getElem?_eq_getElem hid
  unfold widthD
  rw [hnode, h id _ hnode]

theorem Kept.isInput (h : c.Kept c') {id : NodeId} (hid : c.isInput id = true) :
    c'.isInput id = true := by
  unfold Circuit.isInput at *
  split at hid
  · rename_i w name hnode
    rw [h id _ hnode]
  · cases hid

/-- Of the same words a node computes the same. -/
theorem Kept.nodeWord_eq (h : c.Kept c') {applied applied' word word' : NodeId → Nat} {id : NodeId}
    {node : Node} (happlied : ∀ name, node.gate = .input name → applied' id = applied id)
    (hoperands : ∀ o ∈ node.gate.operands, o < c.size ∧ word' o = word o) :
    c'.nodeWord applied' word' id node = c.nodeWord applied word id node := by
  rw [nodeWord_congr fun o ho => (hoperands o ho).2]
  obtain ⟨width, gate⟩ := node
  unfold nodeWord
  congr 1
  cases gate with
  | input name => exact happlied name rfl
  | unary op operand =>
      have hwidth := h.widthD_eq (hoperands operand (by simp [Gate.operands])).1
      simp only [hwidth]
  | binary op left right =>
      have hwidth := h.widthD_eq (hoperands left (by simp [Gate.operands])).1
      simp only [hwidth]
  | _ => rfl

/-- What is evaluated reads what is there. -/
theorem Ordered.operand_lt {order : List NodeId} (h : c.Ordered order) {id o : NodeId}
    (hid : id < c.size) (ho : o ∈ c.operandsOf id) : o < c.size := by
  obtain ⟨before, after, hsplit⟩ := List.append_of_mem ((h.mem_iff id).mpr hid)
  have hbefore := h.earlier before id after hsplit o ho
  exact (h.mem_iff o).mp (hsplit ▸ List.mem_append_left _ hbefore)

/-- With the same words applied to the old inputs, the old nodes carry the same words. -/
theorem Kept.word_eq (h : c.Kept c') {order : List NodeId} (hordered : c.Ordered order)
    {applied applied' word word' : NodeId → Nat}
    (hword : ∀ id node, c.nodes[id]? = some node → word id = c.nodeWord applied word id node)
    (hword' : ∀ id node, c'.nodes[id]? = some node →
      word' id = c'.nodeWord applied' word' id node)
    (happlied : ∀ id, c.isInput id = true → applied' id = applied id) :
    ∀ id < c.size, word' id = word id := by
  intro id
  induction hordered.acc id with
  | intro id _ ih =>
      intro hid
      obtain ⟨node, hnode⟩ : ∃ node, c.nodes[id]? = some node :=
        ⟨_, Array.getElem?_eq_getElem hid⟩
      rw [hword id node hnode, hword' id node (h id node hnode)]
      refine h.nodeWord_eq (fun name hgate => happlied id ?_) fun o ho => ?_
      · obtain ⟨width, gate⟩ := node
        obtain rfl : gate = .input name := hgate
        simp [Circuit.isInput, hnode]
      · rw [← operandsOf_of_node hnode] at ho
        have hlt := hordered.operand_lt hid ho
        exact ⟨hlt, ih o ho hlt⟩

end Circuit

/-- **Adding logic does not change the logic that is there.**  If a circuit can be evaluated, and
can still be evaluated after any number of requests, then whatever words are applied to its inputs,
each of its nodes carries the word that it carried before; and this is so whatever words are applied
to inputs that have been added. -/
theorem extension_keeps_words {c c' : Circuit} (hsteps : c.Steps c')
    {evaluator evaluator' : Evaluator} (haccepted : Evaluator.ofCircuit c = .ok evaluator)
    (haccepted' : Evaluator.ofCircuit c' = .ok evaluator') {stimulus : Stimulus}
    (hinputs : ∀ entry ∈ stimulus.assigned, c.isInput entry.1 = true) :
    ∃ valuation valuation', evaluator.evaluate stimulus = .ok valuation ∧
      evaluator'.evaluate stimulus = .ok valuation' ∧
      (∀ id < c.size, valuation'.word id = valuation.word id) ∧
      ∀ fuller last, evaluator'.evaluate fuller = .ok last →
        (∀ id, c.isInput id = true → fuller.word id = stimulus.word id) →
        ∀ id < c.size, last.word id = valuation.word id := by
  have hcircuit := Evaluator.circuit_of_ofCircuit haccepted
  have hcircuit' := Evaluator.circuit_of_ofCircuit haccepted'
  have horder := evaluator.ordered
  rw [hcircuit] at horder
  have hkept := Circuit.kept_of_le horder hsteps.le
  obtain ⟨valuation, heval⟩ : ∃ valuation, evaluator.evaluate stimulus = .ok valuation :=
    ⟨_, Evaluator.evaluate_eq_ok fun entry hentry => hcircuit ▸ hinputs entry hentry⟩
  obtain ⟨valuation', heval'⟩ : ∃ valuation', evaluator'.evaluate stimulus = .ok valuation' :=
    ⟨_, Evaluator.evaluate_eq_ok fun entry hentry =>
      hcircuit' ▸ hkept.isInput (hinputs entry hentry)⟩
  have hwords := Evaluator.evaluate_agrees heval
  rw [hcircuit] at hwords
  have hkeeps : ∀ fuller last, evaluator'.evaluate fuller = .ok last →
      (∀ id, c.isInput id = true → fuller.word id = stimulus.word id) →
      ∀ id < c.size, last.word id = valuation.word id := by
    intro fuller last heval'' hsame
    have hwords'' := Evaluator.evaluate_agrees heval''
    rw [hcircuit'] at hwords''
    exact hkept.word_eq (Circuit.evaluationOrder_ordered horder) hwords hwords'' hsame
  exact ⟨valuation, valuation', heval, heval', hkeeps stimulus valuation' heval' fun _ _ => rfl,
    hkeeps⟩

namespace Circuit

/-- The inverted input, and then a gate for it that a later input opens. -/
def gatedInversion : Circuit :=
  ⟨invertedInput.nodes ++ #[⟨1, .wire "open" (some 6)⟩, ⟨1, .binary .and 4 0⟩, ⟨1, .input "late"⟩]⟩

/-- One of the requests would give the old wire another driver, and is refused. -/
theorem gatedInversion_steps : invertedInput.Steps gatedInversion := by
  have hsteps := Steps.step (.step (.step (.step (.step (.refl invertedInput) (.wire _ "open" 1))
    (.drive _ 0 4)) (.binary _ .and 4 0)) (.input _ "late" 1)) (.drive _ 4 6)
  refine (congrArg (Steps invertedInput) ?_).mpr hsteps
  decide +kernel

end Circuit

/-- The later input comes between the old nodes in the new order, and they carry what they did. -/
theorem gatedInversion_keeps_words : ∃ evaluator evaluator' valuation valuation',
    Evaluator.ofCircuit Circuit.invertedInput = .ok evaluator ∧
    Evaluator.ofCircuit Circuit.gatedInversion = .ok evaluator' ∧
    evaluator.order = [1, 3, 2, 0] ∧ evaluator'.order = [1, 3, 6, 2, 4, 0, 5] ∧
    evaluator.evaluate ⟨[(1, 1), (3, 300)]⟩ = .ok valuation ∧
    evaluator'.evaluate ⟨[(1, 1), (3, 300)]⟩ = .ok valuation' ∧
    ∀ id < 4, valuation'.word id = valuation.word id := by
  have horder : Circuit.invertedInput.evaluationOrder = .ok [1, 3, 2, 0] := by decide +kernel
  have horder' : Circuit.gatedInversion.evaluationOrder = .ok [1, 3, 6, 2, 4, 0, 5] := by
    decide +kernel
  obtain ⟨evaluator, haccepted⟩ := Evaluator.exists_of_evaluationOrder horder
  obtain ⟨evaluator', haccepted'⟩ := Evaluator.exists_of_evaluationOrder horder'
  have hsame : ∀ {c : Circuit} {order : List NodeId} {evaluator : Evaluator},
      Evaluator.ofCircuit c = .ok evaluator → c.evaluationOrder = .ok order →
        evaluator.order = order := by
    intro c order evaluator haccepted horder
    have hordered := evaluator.ordered
    rw [Evaluator.circuit_of_ofCircuit haccepted, horder] at hordered
    exact (Except.ok.inj hordered).symm
  have hinputs : ∀ entry ∈ (⟨[(1, 1), (3, 300)]⟩ : Stimulus).assigned,
      Circuit.invertedInput.isInput entry.1 = true := by decide
  obtain ⟨valuation, valuation', heval, heval', hkept, -⟩ := extension_keeps_words
    Circuit.gatedInversion_steps haccepted haccepted' hinputs
  exact ⟨evaluator, evaluator', valuation, valuation', haccepted, haccepted',
    hsame haccepted horder, hsame haccepted' horder', heval, heval', hkept⟩

end Interlock
