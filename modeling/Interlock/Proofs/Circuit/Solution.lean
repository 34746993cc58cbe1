/-
What an evaluation computes: the one solution of its circuit.

A solution gives every node the word that its operation has for the words of the nodes it reads,
the operations being those on bit vectors of the width of the operands.  An evaluation writes a
node after those it reads, and in a well-formed circuit every word it writes fits its node, so what
it writes is a solution.  Two solutions agree on a node if they agree on the nodes it reads, hence
on all nodes, one after the other along any order of evaluation; so there is no other solution, and
it does not matter which order is taken.
-/
import Mathlib.Data.List.Basic
import Interlock.Proofs.Circuit.Built
import Interlock.Proofs.Circuit.Gates

namespace Interlock

/-! ### Operations on bit vectors -/

/-- The result of an operation on the bits of one word. -/
def UnaryOp.onBits {n : Nat} : UnaryOp → BitVec n → Nat
  | not, a => (~~~a).toNat
  | any, a => (decide (a ≠ 0#n)).toNat
  | all, a => (decide (a = BitVec.allOnes n)).toNat

/-- The result of an operation on the bits of two words. -/
def BinaryOp.onBits {n : Nat} : BinaryOp → BitVec n → BitVec n → Nat
  | and, a, b => (a &&& b).toNat
  | or, a, b => (a ||| b).toNat
  | xor, a, b => (a ^^^ b).toNat
  | add, a, b => (a + b).toNat
  | sub, a, b => (a - b).toNat
  | eq, a, b => (decide (a = b)).toNat
  | ne, a, b => (decide (a ≠ b)).toNat
  | lt, a, b => (a.ult b).toNat

namespace Word

variable {w a b : Nat}

theorem toNat_ofNat (ha : a < 2 ^ w) : (BitVec.ofNat w a).toNat = a := by
  rw [BitVec.toNat_ofNat, Nat.mod_eq_of_lt ha]

theorem ofNat_inj (ha : a < 2 ^ w) (hb : b < 2 ^ w) :
    BitVec.ofNat w a = BitVec.ofNat w b ↔ a = b := by
  rw [← BitVec.toNat_inj, toNat_ofNat ha, toNat_ofNat hb]

theorem top_eq (hw : 1 ≤ w ∧ w ≤ 64) : top w = (BitVec.allOnes w).toNat := by
  rw [BitVec.toNat_allOnes, top, count_of_valid hw]

/-- Adding the number of the widest words before subtracting does not show in a narrower word. -/
theorem truncate_sub (hw : 1 ≤ w ∧ w ≤ 64) (hb : b < 2 ^ w) :
    truncate w (a + count maxWidth - b) = (2 ^ w - b + a) % 2 ^ w := by
  have hcount : count maxWidth = 2 ^ w * 2 ^ (64 - w) := by
    rw [← Nat.pow_add, Nat.add_sub_cancel' hw.2]
    rfl
  have hpos : 0 < 2 ^ (64 - w) := Nat.two_pow_pos _
  obtain ⟨k, hk⟩ : ∃ k, 2 ^ (64 - w) = k + 1 := ⟨2 ^ (64 - w) - 1, by omega⟩
  have hshift : a + count maxWidth - b = 2 ^ w - b + a + 2 ^ w * k := by
    rw [hcount, hk, Nat.mul_succ]
    omega
  rw [truncate, count_of_valid hw, hshift, Nat.add_mul_mod_self_left]

end Word

/-- In a word of valid width, an operation is that on its bits. -/
theorem UnaryOp.apply_eq (op : UnaryOp) {w a : Nat} (hw : 1 ≤ w ∧ w ≤ 64) (ha : a < 2 ^ w) :
    op.apply w a = op.onBits (BitVec.ofNat w a) := by
  cases op with
  | not =>
      show Word.top w ^^^ a = (~~~(BitVec.ofNat w a)).toNat
      rw [BitVec.not_def, BitVec.toNat_xor, Word.toNat_ofNat ha, Word.top_eq hw]
  | any =>
      have hzero := Word.ofNat_inj ha (Nat.two_pow_pos w)
      simp only [apply, onBits, ne_eq, hzero]
      by_cases h : a = 0
      · simp [h]
      · simp [h]
  | all =>
      have hall : BitVec.ofNat w a = BitVec.allOnes w ↔ a = Word.top w := by
        rw [← BitVec.toNat_inj, Word.toNat_ofNat ha, Word.top_eq hw]
      simp only [apply, onBits, hall]
      rfl

theorem BinaryOp.apply_eq (op : BinaryOp) {w a b : Nat} (hw : 1 ≤ w ∧ w ≤ 64) (ha : a < 2 ^ w)
    (hb : b < 2 ^ w) :
    op.apply w a b = op.onBits (BitVec.ofNat w a) (BitVec.ofNat w b) := by
  have ha' := Word.toNat_ofNat ha
  have hb' := Word.toNat_ofNat hb
  have heq := Word.ofNat_inj ha hb
  cases op with
  | and => simp only [apply, onBits, BitVec.toNat_and, ha', hb']
  | or => simp only [apply, onBits, BitVec.toNat_or, ha', hb']
  | xor => simp only [apply, onBits, BitVec.toNat_xor, ha', hb']
  | add =>
      simp only [apply, onBits, BitVec.toNat_add, ha', hb', Word.truncate, Word.count_of_valid hw]
  | sub =>
      show Word.truncate w (a + Word.count Word.maxWidth - b) = _
      simp only [onBits, BitVec.toNat_sub, ha', hb', Word.truncate_sub hw hb]
  | eq =>
      simp only [apply, onBits, heq]
      rfl
  | ne =>
      simp only [apply, onBits, ne_eq, heq]
      by_cases h : a = b
      · simp [h]
      · simp [h]
  | lt => simp only [apply, onBits, BitVec.ult, ha', hb']

/-- The result of an operation fits the node that carries it. -/
theorem UnaryOp.onBits_lt (op : UnaryOp) {n : Nat} (a : BitVec n) :
    op.onBits a < 2 ^ op.resultWidth n := by
  cases op with
  | not => exact BitVec.isLt _
  | any => exact Bool.toNat_lt _
  | all => exact Bool.toNat_lt _

theorem BinaryOp.onBits_lt (op : BinaryOp) {n : Nat} (a b : BitVec n) :
    op.onBits a b < 2 ^ op.resultWidth n := by
  cases op with
  | eq => exact Bool.toNat_lt _
  | ne => exact Bool.toNat_lt _
  | lt => exact Bool.toNat_lt _
  | _ => exact BitVec.isLt _

namespace Circuit

variable {c : Circuit} {id : NodeId} {node : Node}

/-! ### Solutions -/

/-- The words whose selects are high, combined by or. -/
def selected (word : NodeId → Nat) : List (NodeId × NodeId) → Nat
  | [] => 0
  | (select, value) :: rest =>
    (if (word select).testBit 0 then word value else 0) ||| selected word rest

/-- The word that a node's operation has for the words of the nodes it reads. -/
def signal (c : Circuit) (applied word : NodeId → Nat) (id : NodeId) (node : Node) : Nat :=
  match node.gate with
  | .input _ => applied id % 2 ^ node.width
  | .constant value => value
  | .wire _ driver => (driver.map word).getD 0
  | .unary op operand => op.onBits (BitVec.ofNat (c.widthD operand) (word operand))
  | .binary op left right =>
    op.onBits (BitVec.ofNat (c.widthD left) (word left))
      (BitVec.ofNat (c.widthD left) (word right))
  | .mux select ifTrue ifFalse => if (word select).testBit 0 then word ifTrue else word ifFalse
  | .oneHot selects values => selected word (selects.zip values)

/-- One word for every node, each of them that of its operation. -/
structure Solves (c : Circuit) (stimulus : Stimulus) (words : Array Nat) : Prop where
  size : words.size = c.size
  word : ∀ (id : NodeId) (node : Node), c.nodes[id]? = some node →
    words.getD id 0 = c.signal stimulus.word (words.getD · 0) id node

theorem selected_congr {f g : NodeId → Nat} {options : List (NodeId × NodeId)}
    (h : ∀ option ∈ options, f option.1 = g option.1 ∧ f option.2 = g option.2) :
    selected f options = selected g options := by
  induction options with
  | nil => rfl
  | cons option rest ih =>
      obtain ⟨hselect, hvalue⟩ := h option (by simp)
      simp only [selected, hselect, hvalue, ih fun other hother => h other (by simp [hother])]

theorem selected_lt {word : NodeId → Nat} {w : Nat} {options : List (NodeId × NodeId)}
    (h : ∀ option ∈ options, word option.2 < 2 ^ w) : selected word options < 2 ^ w := by
  induction options with
  | nil => exact Nat.two_pow_pos w
  | cons option rest ih =>
      refine Nat.or_lt_two_pow ?_ (ih fun other hother => h other (by simp [hother]))
      split
      · exact h option (by simp)
      · exact Nat.two_pow_pos w

/-- What an operation answers depends on the words of its operands only. -/
theorem signal_congr {applied f g : NodeId → Nat} (h : ∀ o ∈ node.gate.operands, f o = g o) :
    c.signal applied f id node = c.signal applied g id node := by
  obtain ⟨width, gate⟩ := node
  unfold signal
  cases gate with
  | input name => rfl
  | constant value => rfl
  | wire name driver =>
      cases driver with
      | none => rfl
      | some driver => simp [h driver (by simp [Gate.operands])]
  | unary op operand => simp [h operand (by simp [Gate.operands])]
  | binary op left right =>
      simp [h left (by simp [Gate.operands]), h right (by simp [Gate.operands])]
  | mux select ifTrue ifFalse =>
      simp [h select (by simp [Gate.operands]), h ifTrue (by simp [Gate.operands]),
        h ifFalse (by simp [Gate.operands])]
  | oneHot selects values =>
      refine selected_congr fun option hoption => ⟨h option.1 ?_, h option.2 ?_⟩
      · exact List.mem_append_left _ (List.of_mem_zip hoption).1
      · exact List.mem_append_right _ (List.of_mem_zip hoption).2

/-- Two solutions agree on all nodes, one after the other along an order of evaluation. -/
theorem Solves.unique {stimulus : Stimulus} {words words' : Array Nat} {order : List NodeId}
    (hordered : c.Ordered order) (h : c.Solves stimulus words) (h' : c.Solves stimulus words') :
    words = words' := by
  have hagree : ∀ after before : List NodeId, order = before ++ after →
      (∀ id ∈ before, words.getD id 0 = words'.getD id 0) →
      ∀ id ∈ order, words.getD id 0 = words'.getD id 0 := by
    intro after
    induction after with
    | nil =>
        intro before hsplit hbefore id hid
        rw [hsplit, List.append_nil] at hid
        exact hbefore id hid
    | cons next rest ih =>
        intro before hsplit hbefore
        refine ih (before ++ [next]) (by simp [hsplit]) fun id hid => ?_
        rcases List.mem_append.mp hid with hid | hid
        · exact hbefore id hid
        · obtain rfl := List.mem_singleton.mp hid
          have hlt : id < c.size := (hordered.mem_iff id).mp (by simp [hsplit])
          have hnode : c.nodes[id]? = some c.nodes[id] := Array.getElem?_eq_getElem hlt
          rw [h.word id _ hnode, h'.word id _ hnode]
          refine signal_congr fun o ho => hbefore o (hordered.earlier before id rest hsplit o ?_)
          rwa [operandsOf_of_node hnode]
  apply Array.ext
  · rw [h.size, h'.size]
  · intro id hid hid'
    have hmem : id ∈ order := (hordered.mem_iff id).mpr (by rw [← h.size]; exact hid)
    have hword := hagree order [] rfl (fun _ hnil => absurd hnil (by simp)) id hmem
    rwa [Array.getD_eq_getD_getElem?, Array.getElem?_eq_getElem hid,
      Array.getD_eq_getD_getElem?, Array.getElem?_eq_getElem hid'] at hword

/-! ### What a node computes is what its operation answers -/

/-- The words of the nodes fit them. -/
def InRange (c : Circuit) (word : NodeId → Nat) : Prop :=
  ∀ (id : NodeId) (w : Nat), c.width id = .ok w → word id < 2 ^ w

theorem widthD_eq {w : Nat} (h : c.width id = .ok w) : c.widthD id = w := by
  obtain ⟨node, hnode, rfl⟩ := width_eq_ok_iff.mp h
  unfold widthD
  rw [hnode]

/-- What an operation answers fits its node. -/
theorem Fits.signal_lt (h : c.Fits node) {applied word : NodeId → Nat} (hword : c.InRange word) :
    c.signal applied word id node < 2 ^ node.width := by
  obtain ⟨width, gate⟩ := node
  cases gate with
  | input name => exact Nat.mod_lt _ (Nat.two_pow_pos _)
  | constant value => exact h
  | wire name driver =>
      cases driver with
      | none => exact Nat.two_pow_pos _
      | some source => exact hword source width h
  | unary op operand =>
      have hlt := op.onBits_lt (BitVec.ofNat (c.widthD operand) (word operand))
      cases op with
      | not =>
          have hwidth : c.widthD operand = width := widthD_eq h
          exact Nat.lt_of_lt_of_eq hlt (congrArg (2 ^ ·) hwidth)
      | any => rwa [h.1]
      | all => rwa [h.1]
  | binary op left right =>
      obtain ⟨w, hleft, -, hwidth⟩ := h
      have hlt := op.onBits_lt (BitVec.ofNat (c.widthD left) (word left))
        (BitVec.ofNat (c.widthD left) (word right))
      dsimp only at hwidth
      rwa [hwidth, ← widthD_eq hleft]
  | mux select ifTrue ifFalse =>
      obtain ⟨-, htrue, hfalse⟩ := h
      show (if (word select).testBit 0 then word ifTrue else word ifFalse) < 2 ^ width
      split
      · exact hword ifTrue width htrue
      · exact hword ifFalse width hfalse
  | oneHot selects values =>
      obtain ⟨-, -, -, hvalues⟩ := h
      exact selected_lt fun option hoption =>
        hword option.2 width (hvalues option.2 (List.of_mem_zip hoption).2)

/-- Words combined one after the other are those that are selected. -/
theorem foldl_or_eq (word : NodeId → Nat) (options : List (NodeId × NodeId)) :
    ∀ sum, options.foldl (fun sum (select, value) =>
        if Word.isHigh (word select) then sum ||| word value else sum) sum =
      sum ||| selected word options := by
  induction options with
  | nil => intro sum; exact (Nat.or_zero sum).symm
  | cons option rest ih =>
      intro sum
      obtain ⟨select, value⟩ := option
      rw [List.foldl_cons, ih]
      simp only [selected, Word.isHigh_eq_testBit, ← Nat.or_assoc]
      by_cases h : (word select).testBit 0 = true
      · simp only [h, if_true]
      · simp only [h, Bool.false_eq_true, if_false, Nat.or_zero]

/-- In a well-formed circuit a node computes the word of its operation. -/
theorem WellFormed.nodeWord_eq (h : c.WellFormed) (hnode : c.nodes[id]? = some node)
    {applied word : NodeId → Nat} (hword : c.InRange word) :
    c.nodeWord applied word id node = c.signal applied word id node := by
  have hfits := h.fits id node hnode
  have hlt : c.signal applied word id node < 2 ^ node.width := hfits.signal_lt hword
  rw [← Word.count_of_valid (h.valid id node hnode)] at hlt
  obtain ⟨width, gate⟩ := node
  have hwidth : Word.count width = 2 ^ width := Word.count_of_valid (h.valid id _ hnode)
  have hvalid : ∀ {o w : Nat}, c.width o = .ok w → 1 ≤ w ∧ w ≤ 64 := Build.valid_of_width h
  cases gate with
  | input name =>
      show applied id % Word.count width = applied id % 2 ^ width
      rw [hwidth]
  | constant value => exact Word.truncate_of_lt hlt
  | wire name driver => exact Word.truncate_of_lt hlt
  | unary op operand =>
      obtain ⟨w, hw⟩ : ∃ w, c.width operand = .ok w := by
        cases op with
        | not => exact ⟨width, hfits⟩
        | any => exact hfits.2
        | all => exact hfits.2
      have hop : op.apply (c.widthD operand) (word operand) =
          op.onBits (BitVec.ofNat (c.widthD operand) (word operand)) := by
        rw [widthD_eq hw]
        exact op.apply_eq (hvalid hw) (hword operand w hw)
      show Word.truncate width (op.apply (c.widthD operand) (word operand)) = _
      rw [hop]
      exact Word.truncate_of_lt hlt
  | binary op left right =>
      obtain ⟨w, hleft, hright, -⟩ := hfits
      have hop : op.apply (c.widthD left) (word left) (word right) =
          op.onBits (BitVec.ofNat (c.widthD left) (word left))
            (BitVec.ofNat (c.widthD left) (word right)) := by
        rw [widthD_eq hleft]
        exact op.apply_eq (hvalid hleft) (hword left w hleft) (hword right w hright)
      show Word.truncate width (op.apply (c.widthD left) (word left) (word right)) = _
      rw [hop]
      exact Word.truncate_of_lt hlt
  | mux select ifTrue ifFalse =>
      show Word.truncate width
        (if Word.isHigh (word select) then word ifTrue else word ifFalse) = _
      rw [Word.isHigh_eq_testBit]
      exact Word.truncate_of_lt hlt
  | oneHot selects values =>
      show Word.truncate width ((selects.zip values).foldl _ 0) = _
      rw [foldl_or_eq, Nat.zero_or]
      exact Word.truncate_of_lt hlt

/-! ### Evaluation -/

variable {stimulus : Stimulus} {order : List NodeId}

/-- What is evaluated along an order agrees with every node. -/
theorem valuationAlong_written (hordered : c.Ordered order) (stimulus : Stimulus) :
    Written c stimulus.word order (c.valuationAlong order stimulus).words :=
  foldl_settle_written stimulus hordered order [] (Array.replicate c.size 0) rfl
    ⟨Array.size_replicate, fun id hid => absurd hid (by simp)⟩

theorem valuationAlong_inRange (h : c.WellFormed) (hordered : c.Ordered order) :
    c.InRange (c.valuationAlong order stimulus).word := by
  intro id w hw
  obtain ⟨node, hnode, rfl⟩ := width_eq_ok_iff.mp hw
  have hid : id ∈ order := (hordered.mem_iff id).mpr (lt_size_of_width hw)
  have hword := (valuationAlong_written hordered stimulus).word id hid node hnode
  show (c.valuationAlong order stimulus).words.getD id 0 < 2 ^ node.width
  rw [hword, ← Word.count_of_valid (h.valid id node hnode)]
  exact Word.truncate_lt _ _

/-- Along any order a solution is found. -/
theorem valuationAlong_solves (h : c.WellFormed) (hordered : c.Ordered order)
    (stimulus : Stimulus) : c.Solves stimulus (c.valuationAlong order stimulus).words where
  size := (valuationAlong_written hordered stimulus).size
  word := by
    intro id node hnode
    have hid : id ∈ order :=
      (hordered.mem_iff id).mpr (Array.getElem?_eq_some_iff.mp hnode).1
    rw [(valuationAlong_written hordered stimulus).word id hid node hnode]
    exact h.nodeWord_eq hnode (valuationAlong_inRange h hordered)

theorem refusal?_eq_none_iff : c.refusal? id = none ↔ c.isInput id = true := by
  unfold refusal? isInput
  split <;> simp_all

end Circuit

/-- An evaluation is refused for words that are applied to what is not an input, and otherwise
goes along the evaluator's order. -/
theorem Evaluator.evaluate_eq_ok {evaluator : Evaluator} {stimulus : Stimulus}
    (h : ∀ entry ∈ stimulus.assigned, evaluator.circuit.isInput entry.1 = true) :
    evaluator.evaluate stimulus =
      .ok (evaluator.circuit.valuationAlong evaluator.order stimulus) := by
  unfold evaluate
  have hnone : stimulus.assigned.reverse.findSome? (evaluator.circuit.refusal? ·.1) = none := by
    rw [List.findSome?_eq_none_iff]
    intro entry hentry
    exact Circuit.refusal?_eq_none_iff.mpr (h entry (List.mem_reverse.mp hentry))
  rw [hnone]

theorem Evaluator.evaluate_eq_error_iff {evaluator : Evaluator} {stimulus : Stimulus} :
    (∃ fault, evaluator.evaluate stimulus = .error fault) ↔
      ∃ entry ∈ stimulus.assigned, evaluator.circuit.isInput entry.1 = false := by
  constructor
  · rintro ⟨fault, hfault⟩
    by_contra hall
    have hinputs : ∀ entry ∈ stimulus.assigned, evaluator.circuit.isInput entry.1 = true := by
      intro entry hentry
      by_contra hnot
      exact hall ⟨entry, hentry, Bool.eq_false_iff.mpr hnot⟩
    rw [evaluate_eq_ok hinputs] at hfault
    cases hfault
  · rintro ⟨entry, hentry, hnot⟩
    unfold evaluate
    split
    · rename_i fault _
      exact ⟨fault, rfl⟩
    · rename_i hnone
      have hrefusal := List.findSome?_eq_none_iff.mp hnone entry (List.mem_reverse.mpr hentry)
      rw [Circuit.refusal?_eq_none_iff.mp hrefusal] at hnot
      cases hnot

/-- **An evaluation computes the one solution of its circuit.**  It is refused exactly when a word
is applied to what is not an input; every word fits its node; and any order in which each node
comes after those it reads gives the same words. -/
theorem evaluates_uniquely {c : Circuit} (hbuilt : c.Built) {evaluator : Evaluator}
    (haccepted : Evaluator.ofCircuit c = .ok evaluator) (stimulus : Stimulus) :
    ((∀ entry ∈ stimulus.assigned, c.isInput entry.1 = true) →
      ∃ valuation, evaluator.evaluate stimulus = .ok valuation ∧
        c.Solves stimulus valuation.words ∧
        (∀ words, c.Solves stimulus words → words = valuation.words) ∧
        (∀ (id : NodeId) (node : Node), c.nodes[id]? = some node →
          valuation.word id < 2 ^ node.width) ∧
        ∀ order, c.Ordered order → c.valuationAlong order stimulus = valuation) ∧
      ((∃ fault, evaluator.evaluate stimulus = .error fault) ↔
        ∃ entry ∈ stimulus.assigned, c.isInput entry.1 = false) := by
  have hcircuit := Evaluator.circuit_of_ofCircuit haccepted
  have hordered := Circuit.evaluationOrder_ordered evaluator.ordered
  rw [hcircuit] at hordered
  have hwell := hbuilt.wellFormed
  constructor
  · intro hinputs
    refine ⟨c.valuationAlong evaluator.order stimulus, ?_, ?_, ?_, ?_, ?_⟩
    · rw [← hcircuit] at hinputs ⊢
      exact Evaluator.evaluate_eq_ok hinputs
    · exact Circuit.valuationAlong_solves hwell hordered stimulus
    · intro words hwords
      exact hwords.unique hordered (Circuit.valuationAlong_solves hwell hordered stimulus)
    · intro id node hnode
      exact Circuit.valuationAlong_inRange hwell hordered id node.width
        (Circuit.width_eq_ok_iff.mpr ⟨node, hnode, rfl⟩)
    · intro order horder
      have hsame := (Circuit.valuationAlong_solves hwell horder stimulus).unique hordered
        (Circuit.valuationAlong_solves hwell hordered stimulus)
      exact congrArg Valuation.mk hsame
  · rw [Evaluator.evaluate_eq_error_iff, hcircuit]

/-- Of the words applied to the wide input only the low bits are read. -/
theorem invertedInput_solution :
    ∃ evaluator, Evaluator.ofCircuit Circuit.invertedInput = .ok evaluator ∧
      ∃ valuation, evaluator.evaluate ⟨[(1, 1), (3, 300)]⟩ = .ok valuation ∧
        valuation.words = #[0, 1, 0, 44] ∧
        ∀ words, Circuit.invertedInput.Solves ⟨[(1, 1), (3, 300)]⟩ words →
          words = valuation.words := by
  have haccepted : (Evaluator.ofCircuit Circuit.invertedInput).isOk = true := by decide +kernel
  cases hevaluator : Evaluator.ofCircuit Circuit.invertedInput with
  | error fault =>
      rw [hevaluator] at haccepted
      cases haccepted
  | ok evaluator =>
      obtain ⟨hinputs, -⟩ := evaluates_uniquely Circuit.invertedInput_built hevaluator
        ⟨[(1, 1), (3, 300)]⟩
      obtain ⟨valuation, hvaluation, -, hunique, -, hany⟩ := hinputs (by decide)
      have hwords : valuation.words = #[0, 1, 0, 44] := by
        have hordered : Circuit.invertedInput.Ordered [1, 3, 2, 0] :=
          Circuit.evaluationOrder_ordered (by decide +kernel)
        rw [← hany _ hordered]
        decide +kernel
      exact ⟨evaluator, rfl, valuation, hvaluation, hwords, hunique⟩

end Interlock
