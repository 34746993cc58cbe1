/-
Settled circuits: the words that an evaluation answers agree with every node.

An evaluation writes each node once, after the nodes it reads, so what it wrote of a node is what
the node computes from the words in the end.  Nothing else about the order of evaluation matters
to a proof about a circuit, and a request is described by what it says about every settled circuit
that the one it leaves can grow into: `request.Ensures P`.
-/
import Mathlib.Data.List.Basic
import Interlock.Circuit.Evaluation
import Interlock.Proofs.Circuit.Growth
import Interlock.Proofs.Circuit.Order

namespace Interlock

namespace Circuit

variable {circuit : Circuit}

/-- What a node computes depends on the words of its operands only. -/
theorem nodeWord_congr {applied f g : NodeId → Nat} {id : NodeId} {node : Node}
    (h : ∀ o ∈ node.gate.operands, f o = g o) :
    circuit.nodeWord applied f id node = circuit.nodeWord applied g id node := by
  obtain ⟨width, gate⟩ := node
  unfold nodeWord
  congr 1
  cases gate with
  | input name => rfl
  | constant value => rfl
  | wire name driver =>
      cases driver with
      | none => rfl
      | some driver => simp [h driver (by simp [Gate.operands])]
  | unary op operand => simp [h operand (by simp [Gate.operands])]
  | binary op left right =>
      simp [h left (by simp [Gate.operands]), h right (by simp [Gate.operands])]
  | mux select ifTrue ifFalse =>
      simp [h select (by simp [Gate.operands]), h ifTrue (by simp [Gate.operands]),
        h ifFalse (by simp [Gate.operands])]
  | oneHot selects values =>
      refine List.foldl_ext _ _ _ fun word pair hpair => ?_
      have hselect := h pair.1 (List.mem_append_left _ (List.of_mem_zip hpair).1)
      have hvalue := h pair.2 (List.mem_append_right _ (List.of_mem_zip hpair).2)
      simp [hselect, hvalue]

/-! ### What an evaluation writes -/

/-- The nodes of a list carry what they compute. -/
structure Written (circuit : Circuit) (applied : NodeId → Nat) (done : List NodeId)
    (words : Array Nat) : Prop where
  size : words.size = circuit.size
  word : ∀ id ∈ done, ∀ node, circuit.nodes[id]? = some node →
    words.getD id 0 = circuit.nodeWord applied (words.getD · 0) id node

theorem settle_written {stimulus : Stimulus} {before : List NodeId} {id : NodeId}
    {words : Array Nat} (h : Written circuit stimulus.word before words) (hfresh : id ∉ before)
    (hbefore : ∀ o ∈ circuit.operandsOf id, o ∈ before)
    (hclosed : ∀ i ∈ before, ∀ o ∈ circuit.operandsOf i, o ∈ before) :
    Written circuit stimulus.word (before ++ [id]) (circuit.settle stimulus words id) := by
  unfold settle
  cases hnode : circuit.nodes[id]? with
  | none =>
      refine ⟨h.size, fun i hi node hi' => ?_⟩
      rcases List.mem_append.mp hi with hi | hi
      · exact h.word i hi node hi'
      · rw [List.mem_singleton.mp hi, hnode] at hi'
        cases hi'
  | some node =>
      dsimp only
      set words' := words.setIfInBounds id
        (circuit.nodeWord stimulus.word (words.getD · 0) id node) with hwords
      have hid : id < words.size := by
        rw [h.size]
        exact (Array.getElem?_eq_some_iff.mp hnode).1
      have hkeep : ∀ o ∈ before, words'.getD o 0 = words.getD o 0 := by
        intro o ho
        have hne : ¬ (id = o ∧ id < words.size) := fun hc => hfresh (hc.1 ▸ ho)
        rw [hwords, getD_setIfInBounds, if_neg hne]
      refine ⟨by rw [hwords, Array.size_setIfInBounds, h.size], fun i hi other hother => ?_⟩
      rcases List.mem_append.mp hi with hi | hi
      · rw [hkeep i hi, h.word i hi other hother]
        refine nodeWord_congr fun o ho => ?_
        rw [← operandsOf_of_node hother] at ho
        exact (hkeep o (hclosed i hi o ho)).symm
      · cases List.mem_singleton.mp hi
        rw [hnode] at hother
        cases hother
        rw [hwords, getD_setIfInBounds, if_pos ⟨rfl, hid⟩]
        refine nodeWord_congr fun o ho => ?_
        rw [← operandsOf_of_node hnode] at ho
        exact (hkeep o (hbefore o ho)).symm

theorem foldl_settle_written (stimulus : Stimulus) {order : List NodeId}
    (hordered : circuit.Ordered order) :
    ∀ (after before : List NodeId) (words : Array Nat), order = before ++ after →
      Written circuit stimulus.word before words →
      Written circuit stimulus.word order (after.foldl (circuit.settle stimulus) words) := by
  intro after
  induction after with
  | nil =>
      intro before words hsplit h
      rw [List.append_nil] at hsplit
      rw [hsplit]
      exact h
  | cons id rest ih =>
      intro before words hsplit h
      refine ih (before ++ [id]) _ (by simp [hsplit]) (settle_written h ?_ ?_ ?_)
      · intro hc
        have hnodup := hordered.nodup
        rw [hsplit] at hnodup
        exact (List.nodup_append.mp hnodup).2.2 id hc id (by simp) rfl
      · exact hordered.earlier before id rest hsplit
      · intro i hi o ho
        obtain ⟨l, r, hlr⟩ := List.append_of_mem hi
        have hl := hordered.earlier l i (r ++ id :: rest) (by simp [hsplit, hlr]) o ho
        rw [hlr]
        exact List.mem_append_left _ hl

end Circuit

/-- A circuit with words that agree with every node. -/
structure Settled where
  /-- What the circuit has grown from, or some part of it. -/
  origin : Circuit
  circuit : Circuit
  /-- The words applied to inputs. -/
  applied : NodeId → Nat
  valuation : Valuation
  agrees : ∀ id node, circuit.nodes[id]? = some node →
    valuation.word id = circuit.nodeWord applied valuation.word id node

theorem Evaluator.circuit_of_ofCircuit {circuit : Circuit} {evaluator : Evaluator}
    (h : ofCircuit circuit = .ok evaluator) : evaluator.circuit = circuit := by
  unfold ofCircuit at h
  split at h
  · cases h
    rfl
  · cases h

/-- **Every evaluation settles its circuit.** -/
theorem Evaluator.evaluate_agrees {evaluator : Evaluator} {stimulus : Stimulus}
    {valuation : Valuation} (h : evaluator.evaluate stimulus = .ok valuation) :
    ∀ id node, evaluator.circuit.nodes[id]? = some node →
      valuation.word id = evaluator.circuit.nodeWord stimulus.word valuation.word id node := by
  unfold evaluate at h
  split at h
  · cases h
  · cases h
    intro id node hnode
    have hordered := Circuit.evaluationOrder_ordered evaluator.ordered
    have hwritten := Circuit.foldl_settle_written stimulus hordered evaluator.order []
      (Array.replicate evaluator.circuit.size 0) rfl
      ⟨Array.size_replicate, fun i hi => absurd hi (by simp)⟩
    have hid : id ∈ evaluator.order :=
      (hordered.mem_iff id).mpr (Array.getElem?_eq_some_iff.mp hnode).1
    exact hwritten.word id hid node hnode

/-- The circuit that an evaluation settles. -/
def Evaluator.settled (origin : Circuit) {evaluator : Evaluator} {stimulus : Stimulus}
    {valuation : Valuation} (h : evaluator.evaluate stimulus = .ok valuation) : Settled :=
  ⟨origin, evaluator.circuit, stimulus.word, valuation, evaluate_agrees h⟩

namespace Settled

variable (s : Settled)

/-- The word of a node. -/
def word (id : NodeId) : Nat := s.valuation.word id

/-- Whether the lowest bit of a node is set. -/
def bit (id : NodeId) : Bool := s.valuation.bit id

/-- Whether a node is there and has one bit. -/
def IsBit (id : NodeId) : Prop := s.circuit.width id = .ok 1

variable {s}

theorem word_eq {id : NodeId} {node : Node} (h : s.circuit.nodes[id]? = some node) :
    s.word id = s.circuit.nodeWord s.applied s.word id node := s.agrees id node h

theorem bit_eq (id : NodeId) : s.bit id = Word.isHigh (s.word id) := rfl

/-- The statement holds of all words that agree with every node. -/
def Everywhere (s : Settled) (P : Settled → Prop) : Prop :=
  ∀ s' : Settled, s'.origin = s.origin → s'.circuit = s.circuit → P s'

theorem Everywhere.here {P : Settled → Prop} (h : s.Everywhere P) : P s := h s rfl rfl

/-- A word fits the width of its node. -/
theorem word_lt {id : NodeId} {w : Nat} (h : s.circuit.width id = .ok w) :
    s.word id < Word.count w := by
  obtain ⟨node, hnode, rfl⟩ := Circuit.width_eq_ok_iff.mp h
  rw [word_eq hnode]
  exact Word.truncate_lt _ _

end Settled

end Interlock
