/-
The walk over a circuit visits every node after the nodes it reads.

What carries the argument is the number kept for each node: how many of its reads are of nodes
that the walk has not yet passed on.  It is zero exactly for the nodes found, and a node that is
found late is found because all its operands were passed on, hence found, before.  The readers of
one node are released one at a time, so between two of them the number is still too high by the
reads that are left to be taken off; the invariant names those.
-/
import Mathlib.Data.List.Perm.Subperm
import Interlock.Circuit.Order

namespace Interlock.Circuit

/-- The nodes that a node reads; none if there is no such node. -/
def operandsOf (circuit : Circuit) (id : NodeId) : List NodeId :=
  (circuit.nodes[id]?.map (·.gate.operands)).getD []

variable {circuit : Circuit}

theorem operandsOf_of_node {id : NodeId} {node : Node} (h : circuit.nodes[id]? = some node) :
    circuit.operandsOf id = node.gate.operands := by
  simp [operandsOf, h]

theorem operandsOf_of_size_le {id : NodeId} (h : circuit.size ≤ id) :
    circuit.operandsOf id = [] := by
  unfold operandsOf
  rw [Array.getElem?_eq_none h]
  rfl

/-! ### The table of readers -/

theorem getD_setIfInBounds {α : Type} (a : Array α) (i j : Nat) (x d : α) :
    (a.setIfInBounds i x).getD j d = if i = j ∧ i < a.size then x else a.getD j d := by
  simp only [Array.getD_eq_getD_getElem?, Array.getElem?_setIfInBounds]
  by_cases hij : i = j
  · by_cases hi : i < a.size
    · simp [hij, hij ▸ hi]
    · simp [hij, hij ▸ hi]
  · simp [hij]

/-- Enters one node with its operands into the table of readers. -/
def enter (table : Array (Array NodeId)) (entry : Node × Nat) : Array (Array NodeId) :=
  entry.1.gate.operands.foldl (fun table operand => table.modify operand (·.push entry.2)) table

theorem size_foldl_modify (reader : NodeId) (operands : List NodeId) :
    ∀ table : Array (Array NodeId),
      (operands.foldl (fun table operand => table.modify operand (·.push reader)) table).size
        = table.size := by
  induction operands with
  | nil => intro table; rfl
  | cons operand rest ih => intro table; rw [List.foldl_cons, ih, Array.size_modify]

/-- Entering the operands of a reader adds the reader to each row as often as it reads it. -/
theorem count_foldl_modify (reader u r : NodeId) (operands : List NodeId) :
    ∀ table : Array (Array NodeId), u < table.size →
      ((operands.foldl (fun table operand => table.modify operand (·.push reader)) table).getD u
          #[]).toList.count r
        = (table.getD u #[]).toList.count r + if reader = r then operands.count u else 0 := by
  induction operands with
  | nil => intro table hu; simp
  | cons operand rest ih =>
      intro table hu
      rw [List.foldl_cons, ih _ (by rw [Array.size_modify]; exact hu)]
      have hrow : (table.modify operand (·.push reader)).getD u #[]
          = if operand = u then (table.getD u #[]).push reader else table.getD u #[] := by
        simp only [Array.getD_eq_getD_getElem?, Array.getElem?_modify,
          Array.getElem?_eq_getElem hu]
        by_cases ho : operand = u <;> simp [ho]
      rw [hrow]
      by_cases ho : operand = u
      · by_cases hr : reader = r
        · simp [ho, hr]
          omega
        · simp [ho, hr]
      · simp [ho]

theorem count_foldl_enter (u r : Nat) (nodes : List Node) :
    ∀ (k : Nat) (table : Array (Array NodeId)), u < table.size →
      (((nodes.zipIdx k).foldl enter table).getD u #[]).toList.count r
        = (table.getD u #[]).toList.count r
          + if k ≤ r then ((nodes[r - k]?.map (·.gate.operands)).getD []).count u else 0 := by
  induction nodes with
  | nil => intro k table hu; simp
  | cons node rest ih =>
      intro k table hu
      rw [List.zipIdx_cons, List.foldl_cons,
        ih (k + 1) _ (by rw [enter, size_foldl_modify]; exact hu), enter,
        count_foldl_modify k u r _ table hu]
      rcases Nat.lt_trichotomy r k with hlt | heq | hgt
      · have h1 : ¬ k = r := by omega
        have h2 : ¬ k + 1 ≤ r := by omega
        have h3 : ¬ k ≤ r := by omega
        simp [h1, h2, h3]
      · subst heq
        have h1 : ¬ r + 1 ≤ r := by omega
        simp [h1]
      · have h1 : ¬ k = r := by omega
        have h2 : k + 1 ≤ r := by omega
        have h3 : k ≤ r := by omega
        have h4 : r - k = r - (k + 1) + 1 := by omega
        simp [h1, h2, h3, h4]

/-- A node is in the row of another as often as it reads it. -/
theorem count_readers (u r : NodeId) (hu : u < circuit.size) :
    (circuit.readers.getD u #[]).toList.count r = (circuit.operandsOf r).count u := by
  have h := count_foldl_enter u r circuit.nodes.toList 0 (Array.replicate circuit.size #[])
    (by simpa using hu)
  have htable : circuit.readers
      = circuit.nodes.toList.zipIdx.foldl enter (Array.replicate circuit.size #[]) := rfl
  rw [htable, h]
  simp [operandsOf, hu]

/-! ### What holds during the walk -/

/-- How many reads of a node are of nodes that were not passed on. -/
def waitsFor (circuit : Circuit) (passed : List NodeId) (id : NodeId) : Nat :=
  (circuit.operandsOf id).countP (!passed.contains ·)

theorem waitsFor_eq_zero_iff {passed : List NodeId} {id : NodeId} :
    circuit.waitsFor passed id = 0 ↔ ∀ o ∈ circuit.operandsOf id, o ∈ passed := by
  simp [waitsFor, List.countP_eq_zero]

/-- Passing one more node on takes off the reads of that node. -/
theorem waitsFor_append_singleton {passed : List NodeId} {u : NodeId} (hu : u ∉ passed)
    (id : NodeId) :
    circuit.waitsFor passed id
      = circuit.waitsFor (passed ++ [u]) id + (circuit.operandsOf id).count u := by
  unfold waitsFor
  induction circuit.operandsOf id with
  | nil => rfl
  | cons o rest ih =>
      rw [List.countP_cons, List.countP_cons, List.count_cons, ih]
      by_cases hou : o = u
      · subst hou
        simp [hu]
        omega
      · by_cases hop : o ∈ passed
        · simp [hou, hop]
        · simp [hou, hop]
          omega

/-- The walk has passed on the nodes of one list, and has yet to release those of another. -/
structure Walk (circuit : Circuit) (passed left : List NodeId) (progress : Progress) : Prop where
  size : progress.waiting.size = circuit.size
  nodup : progress.found.toList.Nodup
  range : ∀ id ∈ progress.found.toList, id < circuit.size
  passed_prefix : passed <+: progress.found.toList
  waits : ∀ id < circuit.size,
    progress.waiting.getD id 0 = circuit.waitsFor passed id + left.count id
  found_iff : ∀ id < circuit.size, id ∈ progress.found.toList ↔ progress.waiting.getD id 0 = 0
  /-- The operands of a node found come before it. -/
  earlier : ∀ before id after, progress.found.toList = before ++ id :: after →
    ∀ o ∈ circuit.operandsOf id, o ∈ before

/-! ### One release -/

theorem release_size (progress : Progress) (r : NodeId) :
    (progress.release r).waiting.size = progress.waiting.size := by
  show (progress.waiting.setIfInBounds r _).size = _
  exact Array.size_setIfInBounds

theorem release_waiting_of_ne {progress : Progress} {r id : NodeId} (hne : id ≠ r) :
    (progress.release r).waiting.getD id 0 = progress.waiting.getD id 0 := by
  show (progress.waiting.setIfInBounds r _).getD id 0 = _
  rw [getD_setIfInBounds, if_neg (fun h => hne h.1.symm)]

theorem release_waiting_self {progress : Progress} {r : NodeId}
    (hr : r < progress.waiting.size) :
    (progress.release r).waiting.getD r 0 = progress.waiting.getD r 0 - 1 := by
  show (progress.waiting.setIfInBounds r (progress.waiting.getD r 0 - 1)).getD r 0 = _
  rw [getD_setIfInBounds, if_pos ⟨rfl, hr⟩]

theorem release_found_of_zero {progress : Progress} {r : NodeId}
    (h : progress.waiting.getD r 0 - 1 = 0) :
    (progress.release r).found.toList = progress.found.toList ++ [r] := by
  show (if _ then _ else _ : Array NodeId).toList = _
  rw [if_pos h, Array.toList_push]

theorem release_found_of_ne_zero {progress : Progress} {r : NodeId}
    (h : progress.waiting.getD r 0 - 1 ≠ 0) :
    (progress.release r).found = progress.found := by
  show (if _ then _ else _ : Array NodeId) = _
  rw [if_neg h]

section Release

variable {passed left : List NodeId} {progress : Progress} {r : NodeId}
  (h : Walk circuit passed (r :: left) progress) (hr : r < circuit.size)
include h hr

theorem waiting_of_left :
    progress.waiting.getD r 0 = circuit.waitsFor passed r + left.count r + 1 := by
  rw [h.waits r hr, List.count_cons_self]
  omega

theorem not_found_of_left : r ∉ progress.found.toList := by
  rw [h.found_iff r hr, waiting_of_left h hr]
  omega

theorem release_waits {id : NodeId} (hid : id < circuit.size) :
    (progress.release r).waiting.getD id 0 = circuit.waitsFor passed id + left.count id := by
  by_cases hidr : id = r
  · subst hidr
    rw [release_waiting_self (by rw [h.size]; exact hid), waiting_of_left h hid]
    omega
  · rw [release_waiting_of_ne hidr, h.waits id hid, List.count_cons_of_ne (Ne.symm hidr)]

/-- The last read of a node that is taken off finds the node. -/
theorem release_walk_of_zero (hzero : circuit.waitsFor passed r + left.count r = 0) :
    Walk circuit passed left (progress.release r) := by
  have hfound : (progress.release r).found.toList = progress.found.toList ++ [r] :=
    release_found_of_zero (by rw [waiting_of_left h hr]; omega)
  have hfresh := not_found_of_left h hr
  refine ⟨by rw [release_size, h.size], ?_, ?_, ?_, fun id hid => release_waits h hr hid, ?_, ?_⟩
  · rw [hfound]
    refine List.nodup_append.mpr ⟨h.nodup, by simp, ?_⟩
    intro a ha b hb hab
    rw [List.mem_singleton.mp hb] at hab
    exact hfresh (hab ▸ ha)
  · intro id hid
    rw [hfound] at hid
    rcases List.mem_append.mp hid with hid | hid
    · exact h.range id hid
    · rw [List.mem_singleton.mp hid]
      exact hr
  · rw [hfound]
    exact h.passed_prefix.trans (List.prefix_append _ _)
  · intro id hid
    rw [hfound]
    by_cases hidr : id = r
    · subst hidr
      simp [release_waits h hid hid, hzero]
    · rw [release_waiting_of_ne hidr, ← h.found_iff id hid]
      simp [hidr]
  · intro before id after hsplit o ho
    rw [hfound] at hsplit
    -- Only the last place is new, and nothing that its node reads is left to wait for.
    rcases List.eq_nil_or_concat after with rfl | ⟨after', last, rfl⟩
    · obtain ⟨hbefore, hid⟩ := List.append_inj' hsplit rfl
      cases hid
      rw [← hbefore]
      exact h.passed_prefix.subset (waitsFor_eq_zero_iff.mp (by omega) o ho)
    · rw [List.concat_eq_append, ← List.cons_append, ← List.append_assoc] at hsplit
      obtain ⟨hfront, -⟩ := List.append_inj' hsplit rfl
      exact h.earlier before id after' hfront o ho

theorem release_walk_of_ne_zero (hzero : circuit.waitsFor passed r + left.count r ≠ 0) :
    Walk circuit passed left (progress.release r) := by
  have hfound : (progress.release r).found = progress.found :=
    release_found_of_ne_zero (by rw [waiting_of_left h hr]; omega)
  have hfresh := not_found_of_left h hr
  refine ⟨by rw [release_size, h.size], ?_, ?_, ?_, fun id hid => release_waits h hr hid, ?_, ?_⟩
  · rw [hfound]
    exact h.nodup
  · rw [hfound]
    exact h.range
  · rw [hfound]
    exact h.passed_prefix
  · intro id hid
    rw [hfound]
    by_cases hidr : id = r
    · subst hidr
      rw [release_waits h hid hid]
      exact ⟨fun hc => absurd hc hfresh, fun hc => absurd hc hzero⟩
    · rw [release_waiting_of_ne hidr, h.found_iff id hid]
  · rw [hfound]
    exact h.earlier

theorem release_walk : Walk circuit passed left (progress.release r) := by
  by_cases hzero : circuit.waitsFor passed r + left.count r = 0
  · exact release_walk_of_zero h hr hzero
  · exact release_walk_of_ne_zero h hr hzero

end Release

theorem foldl_release_walk {passed : List NodeId} :
    ∀ (left : List NodeId) {progress : Progress}, Walk circuit passed left progress →
      (∀ r ∈ left, r < circuit.size) →
      Walk circuit passed [] (left.foldl Progress.release progress) := by
  intro left
  induction left with
  | nil => intro progress h _; exact h
  | cons r rest ih =>
      intro progress h hrange
      exact ih (release_walk h (hrange r (by simp))) (fun q hq => hrange q (by simp [hq]))

/-! ### From the start to the end -/

theorem progressStart_walk (circuit : Circuit) : Walk circuit [] [] circuit.progressStart := by
  have hwaiting : ∀ id, circuit.progressStart.waiting.getD id 0
      = (circuit.operandsOf id).length := by
    intro id
    show (circuit.nodes.map (·.gate.operands.length)).getD id 0 = _
    rw [Array.getD_eq_getD_getElem?, Array.getElem?_map]
    unfold operandsOf
    cases circuit.nodes[id]? <;> rfl
  have hmem : ∀ id, id ∈ circuit.progressStart.found.toList ↔
      id < circuit.size ∧ circuit.progressStart.waiting.getD id 0 = 0 := by
    intro id
    show id ∈ ((Array.range circuit.size).filter
      (circuit.progressStart.waiting.getD · 0 == 0)).toList ↔ _
    simp
  refine ⟨by simp [progressStart, size], ?_, fun id hid => ((hmem id).mp hid).1,
    List.nil_prefix, ?_, ?_, ?_⟩
  · show ((Array.range circuit.size).filter _).toList.Nodup
    rw [Array.toList_filter, Array.toList_range]
    exact List.Pairwise.filter _ List.nodup_range
  · intro id _
    rw [hwaiting]
    simp [waitsFor]
  · intro id hid
    rw [hmem]
    exact ⟨fun h => h.2, fun h => ⟨hid, h⟩⟩
  · intro before id after hsplit o ho
    have hzero := ((hmem id).mp (by rw [hsplit]; simp)).2
    rw [hwaiting, List.length_eq_zero_iff] at hzero
    rw [hzero] at ho
    exact absurd ho (by simp)

theorem lt_of_mem_readers {u r : NodeId} (hu : u < circuit.size)
    (hr : r ∈ (circuit.readers.getD u #[]).toList) : r < circuit.size := by
  have hcount : 0 < (circuit.operandsOf r).count u := by
    rw [← count_readers u r hu]
    exact List.count_pos_iff.mpr hr
  rcases Nat.lt_or_ge r circuit.size with hlt | hge
  · exact hlt
  · rw [operandsOf_of_size_le hge] at hcount
    simp at hcount

/-- The reads of the node that is passed on next change sides: they are no longer waited for, but
left to be taken off. -/
theorem pass_walk {passed : List NodeId} {progress : Progress} {u : NodeId}
    (h : Walk circuit passed [] progress) (hu : u < circuit.size) (hnot : u ∉ passed)
    (hstart : passed ++ [u] <+: progress.found.toList) :
    Walk circuit (passed ++ [u]) (circuit.readers.getD u #[]).toList progress := by
  refine { h with passed_prefix := hstart, waits := fun id hid => ?_ }
  rw [h.waits id hid, count_readers u id hu, waitsFor_append_singleton hnot id]
  simp

/-- The node at the position that the walk has come to is passed on next. -/
theorem pass_next_walk {k : Nat} {progress : Progress} {u : NodeId}
    (h : Walk circuit (progress.found.toList.take k) [] progress)
    (hnode : progress.found[k]? = some u) :
    Walk circuit (progress.found.toList.take (k + 1)) (circuit.readers.getD u #[]).toList
      progress := by
  have hlist : progress.found.toList[k]? = some u := by simpa using hnode
  have hu : u < circuit.size := h.range u (List.mem_of_getElem? hlist)
  have htake : progress.found.toList.take (k + 1) = progress.found.toList.take k ++ [u] := by
    rw [List.take_add_one, hlist]
    rfl
  have hnodup : (progress.found.toList.take k ++ [u]).Nodup :=
    htake ▸ h.nodup.sublist (List.take_sublist _ _)
  have hnot : u ∉ progress.found.toList.take k := by
    intro hc
    exact (List.nodup_append.mp hnodup).2.2 u hc u (by simp) rfl
  rw [htake]
  exact pass_walk h hu hnot (htake ▸ List.take_prefix _ _)

theorem advance_walk {k : Nat} {progress : Progress}
    (h : Walk circuit (progress.found.toList.take k) [] progress) :
    Walk circuit ((progress.advance circuit.readers k).found.toList.take (k + 1)) []
      (progress.advance circuit.readers k) := by
  unfold Progress.advance
  cases hnode : progress.found[k]? with
  | none =>
      have hle : progress.found.toList.length ≤ k := by
        simpa using Array.getElem?_eq_none_iff.mp hnode
      rw [List.take_of_length_le hle] at h
      dsimp only
      rw [List.take_of_length_le (Nat.le_succ_of_le hle)]
      exact h
  | some u =>
      dsimp only
      obtain ⟨hk, -⟩ := Array.getElem?_eq_some_iff.mp hnode
      have hu : u < circuit.size :=
        h.range u (Array.mem_toList_iff.mpr (Array.mem_of_getElem? hnode))
      have hfold := foldl_release_walk _ (pass_next_walk h hnode)
        fun r hr => lt_of_mem_readers hu hr
      rw [Array.foldl_toList] at hfold
      have hpassed := List.prefix_iff_eq_take.mp hfold.passed_prefix
      rw [List.length_take_of_le (by simpa using Nat.succ_le_of_lt hk)] at hpassed
      rw [← hpassed]
      exact hfold

theorem foldl_advance_walk (n : Nat) :
    Walk circuit
      (((List.range n).foldl (Progress.advance circuit.readers)
        circuit.progressStart).found.toList.take n) []
      ((List.range n).foldl (Progress.advance circuit.readers) circuit.progressStart) := by
  induction n with
  | zero => simpa using progressStart_walk circuit
  | succ n ih =>
      rw [List.range_succ, List.foldl_append]
      exact advance_walk ih

/-- In the end everything found has been passed on. -/
theorem progressEnd_walk (circuit : Circuit) :
    Walk circuit circuit.progressEnd.found.toList [] circuit.progressEnd := by
  have h : Walk circuit (circuit.progressEnd.found.toList.take circuit.size) []
      circuit.progressEnd := foldl_advance_walk circuit.size
  have hlen : circuit.progressEnd.found.toList.length ≤ circuit.size := by
    have hsub : circuit.progressEnd.found.toList ⊆ List.range circuit.size :=
      fun id hid => List.mem_range.mpr (h.range id hid)
    simpa using (h.nodup.subperm hsub).length_le
  rwa [List.take_of_length_le hlen] at h

/-- The walk finds as many nodes as there are exactly if it finds every one. -/
theorem Walk.size_eq_iff {passed left : List NodeId} {progress : Progress}
    (h : Walk circuit passed left progress) :
    progress.found.size = circuit.size ↔
      ∀ id : NodeId, id < circuit.size → id ∈ progress.found.toList := by
  have hsub : progress.found.toList ⊆ List.range circuit.size :=
    fun id hid => List.mem_range.mpr (h.range id hid)
  constructor
  · intro hsize id hid
    have hperm := (h.nodup.subperm hsub).perm_of_length_le (by simp [hsize])
    exact hperm.mem_iff.mpr (List.mem_range.mpr hid)
  · intro hall
    have hle := (h.nodup.subperm hsub).length_le
    have hge := (List.nodup_range.subperm fun id hid => hall id (List.mem_range.mp hid)).length_le
    rw [List.length_range] at hle hge
    exact Nat.le_antisymm hle hge

/-- An order of all nodes in which each comes after the nodes it reads. -/
structure Ordered (circuit : Circuit) (order : List NodeId) : Prop where
  nodup : order.Nodup
  mem_iff : ∀ id, id ∈ order ↔ id < circuit.size
  earlier : ∀ before id after, order = before ++ id :: after →
    ∀ o ∈ circuit.operandsOf id, o ∈ before

/-- **The order of evaluation has every node after the nodes it reads.** -/
theorem evaluationOrder_ordered {order : List NodeId} (h : circuit.evaluationOrder = .ok order) :
    circuit.Ordered order := by
  unfold evaluationOrder at h
  split at h
  · simp at h
  · dsimp only at h
    split at h
    · rename_i hsize
      cases h
      have hwalk := progressEnd_walk circuit
      exact ⟨hwalk.nodup, fun id => ⟨hwalk.range id, hwalk.size_eq_iff.mp hsize id⟩, hwalk.earlier⟩
    · simp at h

end Interlock.Circuit
