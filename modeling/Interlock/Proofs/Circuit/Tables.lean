/-
Tables of inputs and of constants.

A circuit is searched for the input of a name and for the constant of a value and a width before
another one is appended.  Two tables that are filled as nodes are appended save the search.  In a
well-formed circuit inputs differ in name, and constants in value or width, so that the tables take
every node; they have just the nodes that a search finds, and what a request for an input or for a
constant does to the circuit can be told from them.
-/
import Interlock.Proofs.Circuit.WellFormed
import Interlock.Proofs.Ledger

namespace Interlock

/-- The name of a node that is an input. -/
def Node.inputName? (node : Node) : Option String :=
  match node.gate with
  | .input name => some name
  | _ => none

/-- The value and the width of a node that is a constant. -/
def Node.constant? (node : Node) : Option (Nat × Nat) :=
  match node.gate with
  | .constant value => some (value, node.width)
  | _ => none

namespace Circuit

/-- The table has the inputs of the circuit: what is found by name, what is listed, and which new
input is refused. -/
structure HasInputs (c : Circuit) (table : Std.HashMap String NodeId) : Prop where
  found : ∀ name, c.findInput? name = table[name]?
  listed : ∀ port, port ∈ c.inputs ↔
    table[port.name]? = some port.node ∧ c.width port.node = .ok port.width
  requested : ∀ name w, Word.ValidWidth w → (Build.input name w).run.run c =
    match table[name]? with
    | some _ => (.error (.duplicateName name), c)
    | none => (.ok c.size, ⟨c.nodes.push ⟨w, .input name⟩⟩)

/-- The table has the constants of the circuit: which one is answered, and which one is new. -/
structure HasConstants (c : Circuit) (table : Std.HashMap (Nat × Nat) NodeId) : Prop where
  requested : ∀ value w, (Build.shared ⟨w, .constant value⟩).run.run c =
    match table[(value, w)]? with
    | some id => (.ok id, c)
    | none => (.ok c.size, ⟨c.nodes.push ⟨w, .constant value⟩⟩)

/-- Tables of inputs and of constants that are filled node by node take every node of the circuit,
and have what the circuit has. -/
structure Tabled (c : Circuit) : Prop where
  inputs : ∃ ledger, Ledger.ofList Node.inputName? c.nodes.toList = some ledger ∧
    c.HasInputs ledger.index
  constants : ∃ ledger, Ledger.ofList Node.constant? c.nodes.toList = some ledger ∧
    c.HasConstants ledger.index

variable {c : Circuit} {node : Node} {id : NodeId}

theorem inputName?_eq_some_iff {name : String} :
    node.inputName? = some name ↔ ∃ w, node = ⟨w, .input name⟩ := by
  obtain ⟨width, gate⟩ := node
  cases gate <;> simp [Node.inputName?]

theorem constant?_eq_some_iff {value w : Nat} :
    node.constant? = some (value, w) ↔ node = ⟨w, .constant value⟩ := by
  obtain ⟨width, gate⟩ := node
  cases gate <;> simp [Node.constant?, and_comm]

/-- An input is requested by its name. -/
theorem run_input {name : String} {w : Nat} (hw : Word.ValidWidth w) :
    (Build.input name w).run.run c = match c.findInput? name with
      | some _ => (.error (.duplicateName name), c)
      | none => (.ok c.size, ⟨c.nodes.push ⟨w, .input name⟩⟩) := by
  unfold Build.input Build.checkWidth
  rw [if_pos hw, pure_bind]
  show ((if (c.findInput? name).isSome then _ else _ : Build NodeId)).run.run c = _
  cases c.findInput? name <;> rfl

theorem run_shared : (Build.shared node).run.run c = match c.find? node with
    | some id => (.ok id, c)
    | none => (.ok c.size, ⟨c.nodes.push node⟩) := by
  show (match c.find? node with
    | some id => pure id
    | none => Build.push node : Build NodeId).run.run c = _
  cases c.find? node <;> rfl

namespace WellFormed

theorem inputs_distinct (h : c.WellFormed) : Ledger.Distinct Node.inputName? c.nodes.toList := by
  intro i j node other name hi hj hname hname'
  rw [Array.getElem?_toList] at hi hj
  obtain ⟨w, rfl⟩ := inputName?_eq_some_iff.mp hname
  obtain ⟨w', rfl⟩ := inputName?_eq_some_iff.mp hname'
  exact h.names i j name w w' hi hj

theorem constants_distinct (h : c.WellFormed) : Ledger.Distinct Node.constant? c.nodes.toList := by
  rintro i j node other ⟨value, w⟩ hi hj hvalue hvalue'
  rw [Array.getElem?_toList] at hi hj
  obtain rfl := constant?_eq_some_iff.mp hvalue
  obtain rfl := constant?_eq_some_iff.mp hvalue'
  exact h.constants i j value w hi hj

theorem hasInputs (h : c.WellFormed) {ledger : Ledger String Node}
    (hledger : ledger.Records Node.inputName? c.nodes.toList) : c.HasInputs ledger.index := by
  have hindex : ∀ (name : String) (id : NodeId), ledger.index[name]? = some id ↔
      ∃ w, c.nodes[id]? = some ⟨w, .input name⟩ := by
    intro name id
    simp [hledger.index, inputName?_eq_some_iff]
  have hfound : ∀ name, c.findInput? name = ledger.index[name]? := fun name =>
    Option.ext fun id => h.findInput?_eq_some_iff.trans (hindex name id).symm
  refine ⟨hfound, fun port => ?_, fun name w hw => by rw [run_input hw, hfound]⟩
  rw [mem_inputs, hindex, width_eq_ok_iff]
  constructor
  · exact fun hnode => ⟨⟨_, hnode⟩, _, hnode, rfl⟩
  · rintro ⟨⟨w, hnode⟩, node, hsame, hwidth⟩
    rw [hnode] at hsame
    cases hsame
    exact hwidth ▸ hnode

theorem hasConstants (h : c.WellFormed) {ledger : Ledger (Nat × Nat) Node}
    (hledger : ledger.Records Node.constant? c.nodes.toList) : c.HasConstants ledger.index := by
  refine ⟨fun value w => ?_⟩
  have hfound : c.find? ⟨w, .constant value⟩ = ledger.index[(value, w)]? := by
    refine Option.ext fun id => h.find?_eq_some_iff.trans ?_
    simp [hledger.index, constant?_eq_some_iff]
  rw [run_shared, hfound]

/-- The tables of a well-formed circuit are never in the way, and have what the circuit has. -/
theorem tabled (h : c.WellFormed) : c.Tabled where
  inputs := by
    obtain ⟨ledger, hledger, hrecords⟩ := h.inputs_distinct.exists_ledger
    exact ⟨ledger, hledger, h.hasInputs hrecords⟩
  constants := by
    obtain ⟨ledger, hledger, hrecords⟩ := h.constants_distinct.exists_ledger
    exact ⟨ledger, hledger, h.hasConstants hrecords⟩

end WellFormed

end Circuit
end Interlock
