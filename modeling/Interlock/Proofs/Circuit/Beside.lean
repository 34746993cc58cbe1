/-
What happens beside a copy.

The circuit that holds a copy may get nodes that are no copies.  What is copied is the same
afterwards and stays where it is, so whatever was known of the copies is still known; only the list
of the other nodes gets longer.
-/
import Interlock.Proofs.Circuit.Answered
import Interlock.Proofs.Circuit.Copy

namespace Interlock

namespace Copy

variable {k k' : Copy} {whole : Circuit} {new : List NodeId}

/-- The whole has changed beside the copies, by some new nodes. -/
def beside (k : Copy) (new : List NodeId) (well : whole.WellFormed)
    (same : ∀ i < k.part.size, whole.nodes[k.place i]? = k.whole.nodes[k.place i]?)
    (size : ∀ id < whole.size, id < k.whole.size ∨ id ∈ new)
    (inputs : ∀ (id : NodeId) (w : Nat) (name : String), whole.nodes[id]? = some ⟨w, .input name⟩ →
      k.whole.nodes[id]? = some ⟨w, .input name⟩) : Copy where
  part := k.part
  whole := whole
  place := k.place
  others := new ++ k.others
  partWell := k.partWell
  wholeWell := well
  copied := fun id node hnode => by
    rw [same id (Array.getElem?_eq_some_iff.mp hnode).1]
    exact k.copied id node hnode
  injective := k.injective
  covered := by
    intro id hid
    rcases size id hid with hold | hnew
    · exact (k.covered id hold).imp_left (List.mem_append_right _)
    · exact .inl (List.mem_append_left _ hnew)
  inputs := fun id w name hinput => k.inputs id w name (inputs id w name hinput)

/-- Beside a copy a node that is no input is appended. -/
def besidePush (k : Copy) (node : Node) (well : Circuit.WellFormed ⟨k.whole.nodes.push node⟩)
    (hinput : ∀ name, node.gate ≠ .input name) : Copy :=
  k.beside [k.whole.size] well
    (fun _ hi => Array.getElem?_push.trans
      (if_neg (Nat.ne_of_lt (Places.lt_size (k := k) ⟨hi, rfl⟩))))
    (fun id hid => by
      rw [List.mem_singleton]
      exact Nat.lt_succ_iff_lt_or_eq.mp (by simpa [Circuit.size] using hid))
    fun id w name hid => by
      rcases Circuit.getElem?_push_cases hid with hid | ⟨-, hnode⟩
      · exact hid
      · exact absurd (congrArg Node.gate hnode).symm (hinput name)

/-- Beside a copy a wire gets its driver. -/
def besideDrive (k : Copy) {target source : NodeId} {w : Nat} {name : String} (h : k.Loose target)
    (well : Circuit.WellFormed
      ⟨k.whole.nodes.setIfInBounds target ⟨w, .wire name (some source)⟩⟩) : Copy :=
  k.beside [] well
    (fun i hi => Array.getElem?_setIfInBounds_ne (h.outside i hi).symm)
    (fun _ hid => .inl (Nat.lt_of_lt_of_eq hid (size_drive ..)))
    fun id w' name' hid => by
      rcases Circuit.getElem?_drive_cases hid with hid | ⟨-, hwire⟩
      · exact hid
      · cases hwire

/-- A node that is no input is appended beside the copies. -/
theorem exists_push (k : Copy) {node : Node} (well : Circuit.WellFormed ⟨k.whole.nodes.push node⟩)
    (hinput : ∀ name, node.gate ≠ .input name) :
    ∃ k', k'.part = k.part ∧ k'.whole = ⟨k.whole.nodes.push node⟩ ∧ k.LeadsTo [k.whole.size] k' ∧
      ∀ id, k.Loose id → k'.Loose id := by
  refine ⟨k.besidePush node well hinput, rfl, rfl,
    ⟨k.part.le_refl, k.whole.le_push node, fun _ _ => rfl, rfl⟩, ?_⟩
  intro id hid
  obtain ⟨w, name, hnode⟩ := hid.undriven
  have hlt := (Array.getElem?_eq_some_iff.mp hnode).1
  exact ⟨⟨w, name, (Array.getElem?_push.trans (if_neg (Nat.ne_of_lt hlt))).trans hnode⟩,
    hid.outside⟩

/-! ### A circuit with one more wire -/

theorem moved_self (node : Node) : node.moved (fun id => id) = node := by
  obtain ⟨width, gate⟩ := node
  cases gate with
  | wire name driver => cases driver <;> rfl
  | oneHot selects values => simp [Node.moved, Gate.moved]
  | _ => rfl

/-- Every circuit holds itself. -/
def self (c : Circuit) (well : c.WellFormed) : Copy where
  part := c
  whole := c
  place := fun id => id
  others := []
  partWell := well
  wholeWell := well
  copied := fun id node hnode => by rw [hnode, moved_self]
  injective := fun _ _ _ _ heq => heq
  covered := fun id hid => .inr ⟨id, hid, rfl⟩
  inputs := fun id _ _ hinput => ⟨id, (Array.getElem?_eq_some_iff.mp hinput).1, rfl⟩

/-- A circuit with one more wire holds the circuit, and only the wire is loose. -/
theorem exists_wire {c : Circuit} (well : c.WellFormed) (name : String) :
    ∃ k : Copy, k.part = c ∧ k.whole = ⟨c.nodes.push ⟨1, .wire name none⟩⟩ ∧ k.Fixes c.size ∧
      k.Loose c.size ∧ k.others = [c.size] := by
  have hyields : (Build.wire name 1).Yields c c.size ⟨c.nodes.push ⟨1, .wire name none⟩⟩ :=
    Build.wire_yields_iff.mpr ⟨by decide, rfl, rfl⟩
  have hwell := (Build.wire_keeps name 1).wellFormed well hyields
  obtain ⟨k, hpart, hwhole, hleads, -⟩ := (self c well).exists_push hwell (by simp)
  have hfixes : k.Fixes c.size := hleads.fixes ⟨Nat.le_refl _, fun _ _ => rfl⟩
  refine ⟨k, hpart, hwhole, hfixes, ⟨⟨1, name, ?_⟩, fun i hi heq => ?_⟩, hleads.others⟩
  · rw [hwhole]
    exact Array.getElem?_push_size
  · replace hi : i < c.size := by
      rw [hpart] at hi
      exact hi
    rw [hfixes.eq i hi] at heq
    exact Nat.ne_of_lt hi heq

end Copy

namespace Build

variable (k : Copy)

/-- The constant that is always high is there, or gets there. -/
theorem high_beside : ∃ k' node new, k'.part = k.part ∧ high.Yields k.whole node k'.whole ∧
    k.LeadsTo new k' ∧ (∀ id, k.Loose id → k'.Loose id) ∧
      k'.whole.nodes[node]? = some ⟨1, .constant 1⟩ ∧ ∀ id ∈ new, id = node := by
  cases hfind : k.whole.find? ⟨1, .constant 1⟩ with
  | some node =>
      refine ⟨k, node, [], rfl, shared_yields_iff.mpr (.inl ⟨hfind, rfl⟩),
        .refl k, fun _ h => h, ?_, by simp⟩
      exact k.wholeWell.find?_eq_some_iff.mp hfind
  | none =>
      have hyields : high.Yields k.whole k.whole.size ⟨k.whole.nodes.push ⟨1, .constant 1⟩⟩ :=
        shared_yields_iff.mpr (.inr ⟨hfind, rfl, rfl⟩)
      have hwell := high_keeps.wellFormed k.wholeWell hyields
      obtain ⟨k', hpart, heq, hleads, hloose⟩ := k.exists_push hwell (by simp)
      refine ⟨k', k.whole.size, _, hpart, heq ▸ hyields, hleads, hloose, ?_, by simp⟩
      rw [heq]
      exact Array.getElem?_push_size

/-- Two bits of the whole are combined beside the copies. -/
theorem and_beside {left right : NodeId} (hleft : k.whole.width left = .ok 1)
    (hright : k.whole.width right = .ok 1) :
    ∃ k' node, k'.part = k.part ∧ (and left right).Yields k.whole node k'.whole ∧
      k.LeadsTo [node] k' ∧ (∀ id, k.Loose id → k'.Loose id) ∧
        k'.whole.nodes[node]? = some ⟨1, .binary .and left right⟩ := by
  have hyields : (and left right).Yields k.whole k.whole.size
      ⟨k.whole.nodes.push ⟨1, .binary .and left right⟩⟩ :=
    binary_yields_iff.mpr ⟨1, hleft, hright, rfl, rfl⟩
  have hwell := (binary_keeps .and left right).wellFormed k.wholeWell hyields
  obtain ⟨k', hpart, heq, hleads, hloose⟩ := k.exists_push hwell (by simp)
  refine ⟨k', k.whole.size, hpart, heq ▸ hyields, hleads, hloose, ?_⟩
  rw [heq]
  exact Array.getElem?_push_size

/-- A wire that is no copy is driven. -/
theorem drive_beside {target source : NodeId} (hloose : k.Loose target)
    (htarget : k.whole.width target = .ok 1) (hsource : k.whole.width source = .ok 1) :
    ∃ k' name, k'.part = k.part ∧ (drive target source).Yields k.whole () k'.whole ∧
      k.LeadsTo [] k' ∧ k'.whole.nodes[target]? = some ⟨1, .wire name (some source)⟩ := by
  obtain ⟨w, name, hnode⟩ := hloose.undriven
  obtain rfl : w = 1 := by
    obtain ⟨node, hsome, hwidth⟩ := Circuit.width_eq_ok_iff.mp htarget
    rw [hnode] at hsome
    rw [← hwidth, ← Option.some.inj hsome]
  have hwell := k.wholeWell.drive hnode hsource
  have hlt := (Array.getElem?_eq_some_iff.mp hnode).1
  refine ⟨k.besideDrive hloose hwell, name, rfl, drive_yields hnode hsource, ?_, ?_⟩
  · exact ⟨k.part.le_refl, Circuit.le_drive hnode, fun _ _ => rfl, rfl⟩
  · exact (Array.getElem?_setIfInBounds_self ..).trans (if_pos hlt)

end Build
end Interlock
