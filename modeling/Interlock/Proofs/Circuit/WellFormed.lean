/-
Well-formed circuits.

In a well-formed circuit widths are those of words, a gate is as wide as its operands ask, nothing
but a wire reads a node that is not before it, and no constant and no input name is there twice.
There are two things that a request may do to a circuit, and both keep it well formed: it appends a
node that fits, or it drives an undriven wire by a node of the wire's width.  A circuit that grows
keeps the widths it has, so a node that fits once fits ever after.
-/
import Mathlib.Algebra.Group.Nat.Defs
import Interlock.Proofs.Circuit.Growth

namespace Interlock

/-- A width that signals have counts the words of that many bits. -/
theorem Word.count_of_valid {w : Nat} (h : 1 ≤ w ∧ w ≤ 64) : count w = 2 ^ w := by
  show 2 ^ min w 64 = 2 ^ w
  rw [Nat.min_eq_left h.2]

namespace Circuit

/-- What the gate of a node asks of its own width and of the widths of the nodes it reads. -/
def Fits (circuit : Circuit) (node : Node) : Prop :=
  match node.gate with
  | .input _ => True
  | .constant value => value < 2 ^ node.width
  | .wire _ none => True
  | .wire _ (some source) => circuit.width source = .ok node.width
  | .unary .not operand => circuit.width operand = .ok node.width
  | .unary .any operand => node.width = 1 ∧ ∃ w, circuit.width operand = .ok w
  | .unary .all operand => node.width = 1 ∧ ∃ w, circuit.width operand = .ok w
  | .binary op left right =>
    ∃ w, circuit.width left = .ok w ∧ circuit.width right = .ok w ∧
      node.width = if op.isComparison then 1 else w
  | .mux select ifTrue ifFalse =>
    circuit.width select = .ok 1 ∧ circuit.width ifTrue = .ok node.width ∧
      circuit.width ifFalse = .ok node.width
  | .oneHot selects values =>
    values ≠ [] ∧ selects.length = values.length ∧
      (∀ select ∈ selects, circuit.width select = .ok 1) ∧
      ∀ value ∈ values, circuit.width value = .ok node.width

/-- What holds of every circuit that is built by requests. -/
structure WellFormed (circuit : Circuit) : Prop where
  valid : ∀ (id : NodeId) (node : Node), circuit.nodes[id]? = some node →
    1 ≤ node.width ∧ node.width ≤ 64
  /-- Only a wire reads a node that is not before it. -/
  earlier : ∀ (id : NodeId) (node : Node), circuit.nodes[id]? = some node →
    (∀ name driver, node.gate ≠ .wire name driver) → ∀ o ∈ node.gate.operands, o < id
  fits : ∀ (id : NodeId) (node : Node), circuit.nodes[id]? = some node → circuit.Fits node
  /-- Constants are shared. -/
  constants : ∀ (id id' : NodeId) (value w : Nat),
    circuit.nodes[id]? = some ⟨w, .constant value⟩ →
      circuit.nodes[id']? = some ⟨w, .constant value⟩ → id = id'
  /-- Inputs have names of their own. -/
  names : ∀ (id id' : NodeId) (name : String) (w w' : Nat),
    circuit.nodes[id]? = some ⟨w, .input name⟩ →
      circuit.nodes[id']? = some ⟨w', .input name⟩ → id = id'

variable {c c' : Circuit} {id : NodeId} {node : Node}

/-! ### Nodes that fit -/

theorem lt_size_of_width {w : Nat} (h : c.width id = .ok w) : id < c.size := by
  obtain ⟨node, hnode, -⟩ := width_eq_ok_iff.mp h
  exact (Array.getElem?_eq_some_iff.mp hnode).1

/-- A node that fits goes on fitting while the circuit grows. -/
theorem Fits.mono (h : c.Fits node) (hle : c ≤ c') : c'.Fits node := by
  obtain ⟨width, gate⟩ := node
  cases gate with
  | input name => trivial
  | constant value => exact h
  | wire name driver =>
      cases driver with
      | none => trivial
      | some source => exact width_of_le hle h
  | unary op operand =>
      cases op with
      | not => exact width_of_le hle h
      | any => exact ⟨h.1, h.2.imp fun _ => width_of_le hle⟩
      | all => exact ⟨h.1, h.2.imp fun _ => width_of_le hle⟩
  | binary op left right =>
      obtain ⟨w, hleft, hright, hw⟩ := h
      exact ⟨w, width_of_le hle hleft, width_of_le hle hright, hw⟩
  | mux select ifTrue ifFalse =>
      obtain ⟨hselect, htrue, hfalse⟩ := h
      exact ⟨width_of_le hle hselect, width_of_le hle htrue, width_of_le hle hfalse⟩
  | oneHot selects values =>
      obtain ⟨hne, hlength, hselects, hvalues⟩ := h
      exact ⟨hne, hlength, fun select hselect => width_of_le hle (hselects select hselect),
        fun value hvalue => width_of_le hle (hvalues value hvalue)⟩

/-- What a node that fits reads is there. -/
theorem Fits.operand_lt (h : c.Fits node) {o : NodeId} (ho : o ∈ node.gate.operands) :
    o < c.size := by
  obtain ⟨width, gate⟩ := node
  cases gate with
  | input name => simp [Gate.operands] at ho
  | constant value => simp [Gate.operands] at ho
  | wire name driver =>
      cases driver with
      | none => simp [Gate.operands] at ho
      | some source =>
          obtain rfl : o = source := by simpa [Gate.operands] using ho
          exact lt_size_of_width h
  | unary op operand =>
      obtain rfl : o = operand := by simpa [Gate.operands] using ho
      cases op with
      | not => exact lt_size_of_width h
      | any => exact lt_size_of_width h.2.choose_spec
      | all => exact lt_size_of_width h.2.choose_spec
  | binary op left right =>
      obtain ⟨w, hleft, hright, -⟩ := h
      have hcases : o = left ∨ o = right := by simpa [Gate.operands] using ho
      rcases hcases with rfl | rfl
      · exact lt_size_of_width hleft
      · exact lt_size_of_width hright
  | mux select ifTrue ifFalse =>
      obtain ⟨hselect, htrue, hfalse⟩ := h
      have hcases : o = select ∨ o = ifTrue ∨ o = ifFalse := by simpa [Gate.operands] using ho
      rcases hcases with rfl | rfl | rfl
      · exact lt_size_of_width hselect
      · exact lt_size_of_width htrue
      · exact lt_size_of_width hfalse
  | oneHot selects values =>
      obtain ⟨-, -, hselects, hvalues⟩ := h
      rcases List.mem_append.mp ho with ho | ho
      · exact lt_size_of_width (hselects o ho)
      · exact lt_size_of_width (hvalues o ho)

theorem find?_eq_none_iff : c.find? node = none ↔ ∀ id : NodeId, c.nodes[id]? ≠ some node := by
  unfold find?
  rw [Array.findIdx?_eq_none_iff]
  constructor
  · intro h id hid
    have hne := h node (Array.mem_of_getElem? hid)
    simp at hne
  · intro h x hx
    obtain ⟨id, hid⟩ := Array.mem_iff_getElem?.mp hx
    have hne : x ≠ node := fun heq => h id (heq ▸ hid)
    simpa using hne

theorem isInputNamed_iff {name : String} :
    node.isInputNamed name = true ↔ ∃ w, node = ⟨w, .input name⟩ := by
  obtain ⟨width, gate⟩ := node
  cases gate <;> simp [Node.isInputNamed]

theorem findInput?_eq_none_iff {name : String} :
    c.findInput? name = none ↔
      ∀ (id : NodeId) (w : Nat), c.nodes[id]? ≠ some ⟨w, .input name⟩ := by
  unfold findInput?
  rw [Array.findIdx?_eq_none_iff]
  constructor
  · intro h id w hid
    have hne := h _ (Array.mem_of_getElem? hid)
    simp [Node.isInputNamed] at hne
  · intro h x hx
    obtain ⟨id, hid⟩ := Array.mem_iff_getElem?.mp hx
    rw [Bool.eq_false_iff]
    intro hnamed
    obtain ⟨w, rfl⟩ := isInputNamed_iff.mp hnamed
    exact h id w hid

/-! ### The two things a request does to a circuit -/

theorem empty_wellFormed : empty.WellFormed where
  valid := by intro id node h; simp [empty] at h
  earlier := by intro id node h; simp [empty] at h
  fits := by intro id node h; simp [empty] at h
  constants := by intro id id' value w h; simp [empty] at h
  names := by intro id id' name w w' h; simp [empty] at h

theorem getElem?_push_cases {other : Node}
    (h : (c.nodes.push node)[id]? = some other) :
    c.nodes[id]? = some other ∨ id = c.size ∧ other = node := by
  rw [Array.getElem?_push] at h
  split at h
  · rename_i hid
    exact .inr ⟨hid, (Option.some.inj h).symm⟩
  · exact .inl h

/-- A node may be appended if it fits and is neither a constant that is there nor an input of a
name that is taken. -/
theorem WellFormed.push (h : c.WellFormed) (hvalid : 1 ≤ node.width ∧ node.width ≤ 64)
    (hfits : c.Fits node)
    (hconstant : ∀ value w, node = ⟨w, .constant value⟩ → ∀ id : NodeId, c.nodes[id]? ≠ some node)
    (hname : ∀ name w, node = ⟨w, .input name⟩ →
      ∀ (id : NodeId) (w' : Nat), c.nodes[id]? ≠ some ⟨w', .input name⟩) :
    WellFormed ⟨c.nodes.push node⟩ where
  valid := by
    intro id other hother
    rcases getElem?_push_cases hother with hother | ⟨-, rfl⟩
    · exact h.valid id other hother
    · exact hvalid
  earlier := by
    intro id other hother hwire o ho
    rcases getElem?_push_cases hother with hother | ⟨rfl, rfl⟩
    · exact h.earlier id other hother hwire o ho
    · exact hfits.operand_lt ho
  fits := by
    intro id other hother
    rcases getElem?_push_cases hother with hother | ⟨-, rfl⟩
    · exact (h.fits id other hother).mono (c.le_push node)
    · exact hfits.mono (c.le_push other)
  constants := by
    intro id id' value w hid hid'
    rcases getElem?_push_cases hid with hold | ⟨rfl, rfl⟩
    · rcases getElem?_push_cases hid' with hold' | ⟨-, rfl⟩
      · exact h.constants id id' value w hold hold'
      · exact absurd hold (hconstant value w rfl id)
    · rcases getElem?_push_cases hid' with hold' | ⟨hlast, -⟩
      · exact absurd hold' (hconstant value w rfl id')
      · exact hlast.symm
  names := by
    intro id id' name w w' hid hid'
    rcases getElem?_push_cases hid with hold | ⟨rfl, rfl⟩
    · rcases getElem?_push_cases hid' with hold' | ⟨-, rfl⟩
      · exact h.names id id' name w w' hold hold'
      · exact absurd hold (hname name w' rfl id w)
    · rcases getElem?_push_cases hid' with hold' | ⟨hlast, -⟩
      · exact absurd hold' (hname name w rfl id' w')
      · exact hlast.symm

theorem getElem?_drive_cases {target source : NodeId} {w : Nat} {name : String} {other : Node}
    (h : (c.nodes.setIfInBounds target ⟨w, .wire name (some source)⟩)[id]? = some other) :
    c.nodes[id]? = some other ∨ id = target ∧ other = ⟨w, .wire name (some source)⟩ := by
  by_cases hid : target = id
  · subst hid
    rw [Array.getElem?_setIfInBounds_self] at h
    split at h
    · exact .inr ⟨rfl, (Option.some.inj h).symm⟩
    · cases h
  · rw [Array.getElem?_setIfInBounds_ne hid] at h
    exact .inl h

/-- An undriven wire may be driven by a node of its width. -/
theorem WellFormed.drive (h : c.WellFormed) {target source : NodeId} {w : Nat} {name : String}
    (htarget : c.nodes[target]? = some ⟨w, .wire name none⟩) (hsource : c.width source = .ok w) :
    WellFormed ⟨c.nodes.setIfInBounds target ⟨w, .wire name (some source)⟩⟩ where
  valid := by
    intro id other hother
    rcases getElem?_drive_cases hother with hother | ⟨-, rfl⟩
    · exact h.valid id other hother
    · exact h.valid target ⟨w, .wire name none⟩ htarget
  earlier := by
    intro id other hother hwire o ho
    rcases getElem?_drive_cases hother with hother | ⟨-, rfl⟩
    · exact h.earlier id other hother hwire o ho
    · exact absurd rfl (hwire name (some source))
  fits := by
    intro id other hother
    rcases getElem?_drive_cases hother with hother | ⟨-, rfl⟩
    · exact (h.fits id other hother).mono (le_drive htarget)
    · exact width_of_le (le_drive htarget) hsource
  constants := by
    intro id id' value w' hid hid'
    rcases getElem?_drive_cases hid with hid | ⟨-, hid⟩
    · rcases getElem?_drive_cases hid' with hid' | ⟨-, hid'⟩
      · exact h.constants id id' value w' hid hid'
      · cases hid'
    · cases hid
  names := by
    intro id id' name' w₁ w₂ hid hid'
    rcases getElem?_drive_cases hid with hid | ⟨-, hid⟩
    · rcases getElem?_drive_cases hid' with hid' | ⟨-, hid'⟩
      · exact h.names id id' name' w₁ w₂ hid hid'
      · cases hid'
    · cases hid

/-! ### What is on record -/

theorem exists_of_findInput? {name : String} (h : c.findInput? name = some id) :
    ∃ w, c.nodes[id]? = some ⟨w, .input name⟩ := by
  obtain ⟨hlt, hnamed, -⟩ := Array.findIdx?_eq_some_iff_getElem.mp h
  obtain ⟨w, hw⟩ := isInputNamed_iff.mp hnamed
  exact ⟨w, by rw [Array.getElem?_eq_getElem hlt, hw]⟩

/-- The inputs on record are exactly the input nodes. -/
theorem WellFormed.findInput?_eq_some_iff (h : c.WellFormed) {name : String} :
    c.findInput? name = some id ↔ ∃ w, c.nodes[id]? = some ⟨w, .input name⟩ := by
  constructor
  · exact exists_of_findInput?
  · rintro ⟨w, hid⟩
    cases hfind : c.findInput? name with
    | none => exact absurd hid (findInput?_eq_none_iff.mp hfind id w)
    | some i =>
        obtain ⟨w', hi⟩ := exists_of_findInput? hfind
        rw [h.names i id name w' w hi hid]

/-- A constant on record is the one node that is this constant. -/
theorem WellFormed.find?_eq_some_iff (h : c.WellFormed) {w value : Nat} :
    c.find? ⟨w, .constant value⟩ = some id ↔ c.nodes[id]? = some ⟨w, .constant value⟩ := by
  have hsound : ∀ {id : NodeId}, c.find? ⟨w, .constant value⟩ = some id →
      c.nodes[id]? = some ⟨w, .constant value⟩ := by
    intro id hfind
    obtain ⟨hlt, heq, -⟩ := Array.findIdx?_eq_some_iff_getElem.mp hfind
    rw [Array.getElem?_eq_getElem hlt, eq_of_beq heq]
  refine ⟨hsound, fun hid => ?_⟩
  cases hfind : c.find? ⟨w, .constant value⟩ with
  | none => exact absurd hid (Circuit.find?_eq_none_iff.mp hfind id)
  | some id' => rw [h.constants id id' value w hid (hsound hfind)]

theorem mem_inputs {port : Port} :
    port ∈ c.inputs ↔ c.nodes[port.node]? = some ⟨port.width, .input port.name⟩ := by
  obtain ⟨id, name, width⟩ := port
  unfold inputs
  rw [List.mem_filterMap]
  constructor
  · rintro ⟨⟨⟨w, gate⟩, i⟩, hmem, hport⟩
    have hnode : c.nodes[i]? = some ⟨w, gate⟩ := by
      simpa using List.mem_zipIdx_iff_getElem?.mp hmem
    cases gate <;> simp at hport
    obtain ⟨rfl, rfl, rfl⟩ := hport
    exact hnode
  · intro h
    refine ⟨(⟨width, .input name⟩, id), ?_, rfl⟩
    exact List.mem_zipIdx_iff_getElem?.mpr (by simpa using h)

/-- The inputs are listed by number. -/
theorem inputs_ascending (c : Circuit) : (c.inputs.map Port.node).Pairwise (· < ·) := by
  have hnumbers : c.nodes.toList.zipIdx.Pairwise fun entry other => entry.2 < other.2 := by
    refine List.pairwise_map.mp ?_
    rw [List.zipIdx_map_snd]
    exact List.pairwise_lt_range'
  unfold inputs
  rw [List.pairwise_map, List.pairwise_filterMap]
  refine hnumbers.imp fun {entry other} hlt port hport port' hport' => ?_
  obtain ⟨node, id⟩ := entry
  obtain ⟨node', id'⟩ := other
  dsimp only at hport hport'
  split at hport
  · split at hport'
    · cases hport
      cases hport'
      exact hlt
    · cases hport'
  · cases hport

end Circuit
end Interlock
