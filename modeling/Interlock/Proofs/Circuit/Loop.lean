/-
What the walk over a circuit leaves out.

A node is on a loop if it waits for itself, and behind a loop if it is on one or waits for one.
Since a circuit is finite, a node that does not settle is behind a loop: waiting for another node
is transitive, and among the nodes behind no loop nothing waits for itself.  So the walk leaves out
exactly the nodes behind a loop, and what it finds in the end decides between the answers: a
circuit without an undriven wire has an order of evaluation, or else a loop.

The walk takes a read off a reader only while the reader waits for one.  That is part of its
invariant, and is stated of a walk that stops at a read too many: it comes to the same end.
-/
import Mathlib.Data.Fintype.Card
import Mathlib.Data.Fintype.EquivFin
import Interlock.Proofs.Circuit.Built
import Interlock.Proofs.Circuit.Resting

namespace Interlock.Circuit

variable {c : Circuit} {id : NodeId}

/-! ### Loops -/

/-- The node waits for itself. -/
def OnLoop (c : Circuit) (id : NodeId) : Prop := Relation.TransGen c.Reads id id

/-- The node is on a loop or waits for one. -/
def BehindLoop (c : Circuit) (id : NodeId) : Prop :=
  ∃ o, c.OnLoop o ∧ Relation.ReflTransGen c.Reads o id

theorem OnLoop.behindLoop (h : c.OnLoop id) : c.BehindLoop id := ⟨id, h, .refl⟩

theorem BehindLoop.of_reads {o : NodeId} (h : c.BehindLoop o) (hreads : c.Reads o id) :
    c.BehindLoop id := by
  obtain ⟨first, hloop, hto⟩ := h
  exact ⟨first, hloop, hto.tail hreads⟩

/-- A node behind a loop reads a node behind a loop. -/
theorem BehindLoop.exists_reads (h : c.BehindLoop id) : ∃ o, c.BehindLoop o ∧ c.Reads o id := by
  obtain ⟨first, hloop, hto⟩ := h
  rcases hto.cases_tail with rfl | ⟨o, hto, hreads⟩
  · obtain ⟨o, hto, hreads⟩ := Relation.TransGen.tail'_iff.mp hloop
    exact ⟨o, ⟨id, hloop, hto⟩, hreads⟩
  · exact ⟨o, ⟨first, hloop, hto⟩, hreads⟩

theorem not_behindLoop_of_acc (h : Acc c.Reads id) : ¬ c.BehindLoop id := by
  induction h with
  | intro id _ ih =>
      intro hbehind
      obtain ⟨o, ho, hreads⟩ := hbehind.exists_reads
      exact ih o hreads ho

/-- Among the nodes of a circuit that are behind no loop, waiting is well founded. -/
theorem acc_of_not_behindLoop (h : ¬ c.BehindLoop id) : Acc c.Reads id := by
  let Waits (a b : Fin c.size) : Prop := Relation.TransGen c.Reads a b ∧ ¬ c.BehindLoop b
  have htrans : IsTrans (Fin c.size) Waits := ⟨fun _ _ _ hab hbd => ⟨hab.1.trans hbd.1, hbd.2⟩⟩
  have hirrefl : Std.Irrefl Waits := ⟨fun _ haa => haa.2 (OnLoop.behindLoop haa.1)⟩
  have hfree : ∀ a : Fin c.size, ¬ c.BehindLoop a → Acc c.Reads a := by
    intro a
    induction a using (Finite.wellFounded_of_trans_of_irrefl Waits).induction with
    | _ a ih =>
        intro ha
        refine .intro _ fun o ho => ?_
        by_cases hlt : o < c.size
        · exact ih ⟨o, hlt⟩ ⟨.single ho, ha⟩ fun hbehind => ha (hbehind.of_reads ho)
        · exact .intro o fun _ hreads => absurd hreads.lt_size hlt
  by_cases hid : id < c.size
  · exact hfree ⟨id, hid⟩ h
  · exact .intro id fun o ho => absurd (Reads.lt_size ho) hid

/-- A node settles exactly if it is behind no loop. -/
theorem acc_iff_not_behindLoop : Acc c.Reads id ↔ ¬ c.BehindLoop id :=
  ⟨not_behindLoop_of_acc, acc_of_not_behindLoop⟩

/-! ### What is left waiting -/

theorem WellFormed.operandsOf_lt (h : c.WellFormed) (id : NodeId) :
    ∀ o ∈ c.operandsOf id, o < c.size := by
  intro o ho
  have hnode := Array.getElem?_eq_getElem (Reads.lt_size ho)
  rw [operandsOf_of_node hnode] at ho
  exact (h.fits id _ hnode).operand_lt ho

/-- The walk finds what is behind no loop. -/
theorem WellFormed.mem_found_iff (h : c.WellFormed) (hid : id < c.size) :
    id ∈ c.progressEnd.found.toList ↔ ¬ c.BehindLoop id := by
  rw [← acc_iff_not_behindLoop]
  exact ⟨acc_of_earlier (progressEnd_walk c).earlier, fun hacc =>
    mem_found_of_acc h.operandsOf_lt hacc hid⟩

/-- The walk leaves waiting what is behind a loop. -/
theorem WellFormed.waiting_pos_iff (h : c.WellFormed) (hid : id < c.size) :
    0 < c.progressEnd.waiting.getD id 0 ↔ c.BehindLoop id := by
  rw [Nat.pos_iff_ne_zero, ne_eq, ← (progressEnd_walk c).found_iff id hid, h.mem_found_iff hid,
    not_not]

/-- A node on a loop is there, since it reads. -/
theorem OnLoop.lt_size (h : c.OnLoop id) : id < c.size := by
  obtain ⟨o, -, hreads⟩ := Relation.TransGen.tail'_iff.mp h
  exact hreads.lt_size

/-- The walk finds every node exactly if there is no loop. -/
theorem WellFormed.found_size_iff (h : c.WellFormed) :
    c.progressEnd.found.size = c.size ↔ ∀ id, ¬ c.OnLoop id := by
  rw [(progressEnd_walk c).size_eq_iff]
  refine ⟨fun hall id hloop => ?_, fun hnone id hid => ?_⟩
  · have hid := hloop.lt_size
    exact (h.mem_found_iff hid).mp (hall id hid) hloop.behindLoop
  · refine (h.mem_found_iff hid).mpr fun hbehind => ?_
    obtain ⟨o, hloop, -⟩ := hbehind
    exact hnone o hloop

/-! ### The first undriven wire -/

/-- The name is that of the undriven wire of smallest number. -/
def FirstUndriven (c : Circuit) (name : String) : Prop :=
  ∃ id w, c.nodes[id]? = some ⟨w, .wire name none⟩ ∧ ∀ o < id, ¬ c.Undriven o

theorem exists_firstUndriven (h : c.Undriven id) : ∃ name, c.FirstUndriven name := by
  classical
  have hexists : ∃ id, c.Undriven id := ⟨id, h⟩
  obtain ⟨w, name, hnode⟩ := Nat.find_spec hexists
  exact ⟨name, Nat.find hexists, w, hnode, fun _ => Nat.find_min hexists⟩

/-- What keeps a node of a well-formed circuit from being evaluated is that nothing drives it. -/
theorem WellFormed.looseEnd?_eq_none_iff (h : c.WellFormed) {node : Node}
    (hnode : c.nodes[id]? = some node) : c.looseEnd? node = none ↔ ¬ c.Undriven id := by
  rw [Circuit.looseEnd?_eq_none_iff]
  refine ⟨fun hends hundriven => ?_, fun hdriven => ?_⟩
  · obtain ⟨w, name, hwire⟩ := hundriven
    rw [hwire] at hnode
    cases hnode
    exact hends.1 name rfl
  · refine ⟨fun name hgate => hdriven ⟨node.width, name, by rw [hnode, ← hgate]⟩, ?_⟩
    exact fun o => (h.fits id node hnode).operand_lt

/-- The search for a loose end comes upon the first undriven wire. -/
theorem WellFormed.findSome?_looseEnd? (h : c.WellFormed) {name : String}
    (hfirst : c.FirstUndriven name) :
    c.nodes.toList.findSome? c.looseEnd? = some (.undrivenWire name) := by
  obtain ⟨id, w, hnode, hbefore⟩ := hfirst
  have hlist : c.nodes.toList[id]? = some ⟨w, .wire name none⟩ := by
    rw [Array.getElem?_toList, hnode]
  obtain ⟨hlt, hget⟩ := List.getElem?_eq_some_iff.mp hlist
  refine List.findSome?_eq_some_iff.mpr
    ⟨c.nodes.toList.take id, ⟨w, .wire name none⟩, c.nodes.toList.drop (id + 1), ?_, rfl, ?_⟩
  · rw [← hget, ← List.drop_eq_getElem_cons hlt, List.take_append_drop]
  · intro node hmem
    obtain ⟨o, ho, hnode'⟩ := List.mem_take_iff_getElem.mp hmem
    have hgot : c.nodes[o]? = some node := by
      rw [← Array.getElem?_toList, ← hnode']
      exact List.getElem?_eq_getElem _
    exact (h.looseEnd?_eq_none_iff hgot).mpr (hbefore o (Nat.lt_min.mp ho).1)

theorem WellFormed.findSome?_looseEnd?_eq_none (h : c.WellFormed)
    (hdriven : ∀ id, ¬ c.Undriven id) : c.nodes.toList.findSome? c.looseEnd? = none := by
  refine List.findSome?_eq_none_iff.mpr fun node hmem => ?_
  obtain ⟨id, hid⟩ := List.mem_iff_getElem?.mp hmem
  exact (h.looseEnd?_eq_none_iff (by rwa [Array.getElem?_toList] at hid)).mpr (hdriven id)

/-! ### The answer -/

/-- Either a wire is undriven, and the first is named; or there is no loop, and an order of all
nodes; or there is a loop, and a node is named that is left waiting. -/
theorem WellFormed.evaluationOrder_cases (h : c.WellFormed) :
    (∃ name, c.FirstUndriven name ∧ c.evaluationOrder = .error (.undrivenWire name)) ∨
    (∀ id, ¬ c.Undriven id) ∧ (∀ id, ¬ c.OnLoop id) ∧ (∃ order, c.evaluationOrder = .ok order) ∨
    (∀ id, ¬ c.Undriven id) ∧ (∃ id, c.OnLoop id) ∧
      c.evaluationOrder = .error (.combinationalLoop (c.culprit c.progressEnd.waiting)) := by
  unfold evaluationOrder
  by_cases hundriven : ∃ id, c.Undriven id
  · obtain ⟨id, hid⟩ := hundriven
    obtain ⟨name, hfirst⟩ := exists_firstUndriven hid
    refine .inl ⟨name, hfirst, ?_⟩
    rw [h.findSome?_looseEnd? hfirst]
  · have hdriven := not_exists.mp hundriven
    rw [h.findSome?_looseEnd?_eq_none hdriven]
    dsimp only
    by_cases hloop : ∃ id, c.OnLoop id
    · refine .inr (.inr ⟨hdriven, hloop, if_neg fun hsize => ?_⟩)
      obtain ⟨id, hid⟩ := hloop
      exact h.found_size_iff.mp hsize id hid
    · have hnone := not_exists.mp hloop
      exact .inr (.inl ⟨hdriven, hnone, _, if_pos (h.found_size_iff.mpr hnone)⟩)

/-! ### No read too many -/

/-- Takes one read off a reader, if it waits for one. -/
def Progress.release? (progress : Progress) (reader : NodeId) : Option Progress :=
  if progress.waiting.getD reader 0 = 0 then none else some (progress.release reader)

/-- Passes the node at a position on to its readers, if they all wait for it. -/
def Progress.advance? (readers : Array (Array NodeId)) (progress : Progress) (position : Nat) :
    Option Progress :=
  match progress.found[position]? with
  | none => some progress
  | some node => (readers.getD node #[]).toList.foldlM Progress.release? progress

/-- The end of the walk, if it never takes a read off a reader that waits for none. -/
def progressEnd? (c : Circuit) : Option Progress :=
  (List.range c.size).foldlM (Progress.advance? c.readers) c.progressStart

theorem foldlM_release? {passed : List NodeId} (left : List NodeId) :
    ∀ {progress : Progress}, Walk c passed left progress → (∀ r ∈ left, r < c.size) →
      left.foldlM Progress.release? progress = some (left.foldl Progress.release progress) := by
  induction left with
  | nil => intro progress _ _; rfl
  | cons r rest ih =>
      intro progress hwalk hrange
      have hr := hrange r (by simp)
      have hwaits : progress.waiting.getD r 0 ≠ 0 := by
        rw [waiting_of_left hwalk hr]
        omega
      have hrelease : progress.release? r = some (progress.release r) := if_neg hwaits
      rw [List.foldlM_cons, hrelease]
      exact ih (release_walk hwalk hr) fun q hq => hrange q (by simp [hq])

theorem advance?_eq {progress : Progress} {k : Nat}
    (hwalk : Walk c (progress.found.toList.take k) [] progress) :
    progress.advance? c.readers k = some (progress.advance c.readers k) := by
  unfold Progress.advance? Progress.advance
  cases hnode : progress.found[k]? with
  | none => rfl
  | some u =>
      dsimp only
      have hu : u < c.size :=
        hwalk.range u (Array.mem_toList_iff.mpr (Array.mem_of_getElem? hnode))
      rw [← Array.foldl_toList]
      exact foldlM_release? _ (pass_next_walk hwalk hnode) fun r hr => lt_of_mem_readers hu hr

theorem foldlM_advance? (n : Nat) :
    (List.range n).foldlM (Progress.advance? c.readers) c.progressStart =
      some ((List.range n).foldl (Progress.advance c.readers) c.progressStart) := by
  induction n with
  | zero => rfl
  | succ n ih =>
      rw [List.range_succ, List.foldlM_append, List.foldl_append, ih, Option.bind_eq_bind,
        Option.bind_some, List.foldlM_cons, advance?_eq (foldl_advance_walk n)]
      rfl

/-- The walk takes a read off a reader only while the reader waits for one. -/
theorem progressEnd?_eq (c : Circuit) : c.progressEnd? = some c.progressEnd :=
  foldlM_advance? c.size

/-! ### Soundness and completeness -/

theorem FirstUndriven.exists_undriven {name : String} (h : c.FirstUndriven name) :
    ∃ id, c.Undriven id := by
  obtain ⟨id, w, hnode, -⟩ := h
  exact ⟨id, w, name, hnode⟩

theorem Ordered.perm {order : List NodeId} (h : c.Ordered order) :
    order.Perm (List.range c.size) :=
  (List.perm_ext_iff_of_nodup h.nodup List.nodup_range).mpr fun id => by
    rw [h.mem_iff, List.mem_range]

/-- **A circuit has an order of evaluation exactly if nothing stands in its way.**  Whatever
requests built it, the order is there exactly if every wire is driven and no node waits for itself;
it has every node once, after all that the node reads, and no read is taken off a reader that waits
for none.  If some wire is undriven, the first of these is named instead; if none is, but some node
waits for itself, a loop is reported. -/
theorem evaluationOrder_exact (h : c.Built) :
    ((∃ order, c.evaluationOrder = .ok order) ↔
      (∀ id, ¬ c.Undriven id) ∧ ∀ id, ¬ c.OnLoop id) ∧
    (∀ order, c.evaluationOrder = .ok order → order.Perm (List.range c.size) ∧
      ∀ before id after, order = before ++ id :: after → ∀ o ∈ c.operandsOf id, o ∈ before) ∧
    c.progressEnd? = some c.progressEnd ∧
    ((∃ name, c.evaluationOrder = .error (.undrivenWire name)) ↔ ∃ id, c.Undriven id) ∧
    (∀ name, c.evaluationOrder = .error (.undrivenWire name) → c.FirstUndriven name) ∧
    ((∃ label, c.evaluationOrder = .error (.combinationalLoop label)) ↔
      (∀ id, ¬ c.Undriven id) ∧ ∃ id, c.OnLoop id) := by
  have hordered : ∀ order, c.evaluationOrder = .ok order → order.Perm (List.range c.size) ∧
      ∀ before id after, order = before ++ id :: after → ∀ o ∈ c.operandsOf id, o ∈ before := by
    intro order horder
    have hordered := evaluationOrder_ordered horder
    exact ⟨hordered.perm, hordered.earlier⟩
  rcases h.wellFormed.evaluationOrder_cases with
    ⟨name, hfirst, hanswer⟩ | ⟨hdriven, hnone, order, hanswer⟩ | ⟨hdriven, hloop, hanswer⟩
  · obtain ⟨id, hid⟩ := hfirst.exists_undriven
    have hnot : ¬ ∀ id, ¬ c.Undriven id := fun hdriven => hdriven id hid
    refine ⟨?_, hordered, progressEnd?_eq c, ?_, ?_, ?_⟩
    · simp [hanswer, hnot]
    · simp [hanswer, Exists.intro id hid]
    · intro other hother
      rw [hanswer] at hother
      cases hother
      exact hfirst
    · simp [hanswer, hnot]
  · refine ⟨?_, hordered, progressEnd?_eq c, ?_, ?_, ?_⟩
    · exact ⟨fun _ => ⟨hdriven, hnone⟩, fun _ => ⟨order, hanswer⟩⟩
    · simp [hanswer, hdriven]
    · simp [hanswer]
    · simp [hanswer, hnone]
  · obtain ⟨id, hid⟩ := hloop
    have hnot : ¬ ∀ id, ¬ c.OnLoop id := fun hnone => hnone id hid
    refine ⟨?_, hordered, progressEnd?_eq c, ?_, ?_, ?_⟩
    · simp [hanswer, hnot]
    · simp [hanswer, hdriven]
    · simp [hanswer]
    · exact ⟨fun _ => ⟨hdriven, id, hid⟩, fun _ => ⟨_, hanswer⟩⟩

/-- A wire driven by a node that reads an input twice. -/
def doubledInput : Circuit :=
  ⟨#[⟨1, .wire "out" (some 2)⟩, ⟨1, .input "in"⟩, ⟨1, .binary .and 1 1⟩]⟩

theorem doubledInput_built : Built doubledInput := by
  have hsteps := Steps.step (.step (.step (.step (.refl empty) (.wire _ "out" 1))
    (.input _ "in" 1)) (.binary _ .and 1 1)) (.drive _ 0 2)
  refine (congrArg (Steps empty) ?_).mpr hsteps
  decide +kernel

/-- The node that reads the input twice is found once, and before the wire. -/
theorem doubledInput_exact : doubledInput.Built ∧
    doubledInput.evaluationOrder = .ok [1, 2, 0] ∧
    (∀ id, ¬ doubledInput.Undriven id) ∧ (∀ id, ¬ doubledInput.OnLoop id) ∧
    doubledInput.progressEnd? = some doubledInput.progressEnd := by
  have horder : doubledInput.evaluationOrder = .ok [1, 2, 0] := by decide +kernel
  obtain ⟨hiff, -, hcounts, -⟩ := evaluationOrder_exact doubledInput_built
  obtain ⟨hdriven, hnone⟩ := hiff.mp ⟨_, horder⟩
  exact ⟨doubledInput_built, horder, hdriven, hnone, hcounts⟩

end Interlock.Circuit
