/-
Copies of a circuit in another one.

A circuit is copied into another one if each of its nodes has a place there, at which the same gate
reads the places of what it read.  The other circuit may hold more: nodes that are no copies.  None
of them is an input, and of the wires among them that have no driver, none gets one as long as
requests are made to copies only.

Two circuits that grow in step keep this: a node that is appended to both is copied, and so is a
shared constant that the other circuit may have had before; and a wire that is driven in both is
driven by the copy of its driver.
-/
import Interlock.Circuit.Evaluation
import Interlock.Proofs.Circuit.Built

namespace Interlock

/-! ### Nodes that read other nodes -/

/-- The gate, reading the places of the nodes it reads. -/
def Gate.moved (place : NodeId → NodeId) : Gate → Gate
  | .input name => .input name
  | .constant value => .constant value
  | .wire name driver => .wire name (driver.map place)
  | .unary op operand => .unary op (place operand)
  | .binary op left right => .binary op (place left) (place right)
  | .mux select ifTrue ifFalse => .mux (place select) (place ifTrue) (place ifFalse)
  | .oneHot selects values => .oneHot (selects.map place) (values.map place)

/-- The node, reading the places of the nodes it reads. -/
def Node.moved (place : NodeId → NodeId) (node : Node) : Node :=
  ⟨node.width, node.gate.moved place⟩

theorem Gate.operands_moved (place : NodeId → NodeId) (gate : Gate) :
    (gate.moved place).operands = gate.operands.map place := by
  cases gate with
  | wire name driver => cases driver <;> rfl
  | oneHot selects values => simp [moved, operands]
  | _ => rfl

/-- A wire without a driver is the copy of one. -/
theorem Gate.eq_of_moved_eq {place : NodeId → NodeId} {gate : Gate} {name : String}
    (h : gate.moved place = .wire name none) : gate = .wire name none := by
  cases gate with
  | wire other driver =>
      cases driver with
      | none => exact h
      | some driver => cases h
  | _ => cases h

theorem Node.moved_congr {place place' : NodeId → NodeId} {node : Node}
    (h : ∀ o ∈ node.gate.operands, place' o = place o) : node.moved place' = node.moved place := by
  obtain ⟨width, gate⟩ := node
  unfold moved
  congr 1
  cases gate with
  | input name => rfl
  | constant value => rfl
  | wire name driver =>
      cases driver with
      | none => rfl
      | some driver => simp [Gate.moved, h driver (by simp [Gate.operands])]
  | unary op operand => simp [Gate.moved, h operand (by simp [Gate.operands])]
  | binary op left right =>
      simp [Gate.moved, h left (by simp [Gate.operands]), h right (by simp [Gate.operands])]
  | mux select ifTrue ifFalse =>
      simp [Gate.moved, h select (by simp [Gate.operands]), h ifTrue (by simp [Gate.operands]),
        h ifFalse (by simp [Gate.operands])]
  | oneHot selects values =>
      have hselects : selects.map place' = selects.map place :=
        List.map_congr_left fun o ho => h o (List.mem_append_left _ ho)
      have hvalues : values.map place' = values.map place :=
        List.map_congr_left fun o ho => h o (List.mem_append_right _ ho)
      simp [Gate.moved, hselects, hvalues]

/-! ### Copies -/

/-- A circuit, and another one that holds a copy of it. -/
structure Copy where
  part : Circuit
  whole : Circuit
  /-- Where the copy of a node is. -/
  place : NodeId → NodeId
  /-- The nodes that need not be copies. -/
  others : List NodeId
  partWell : part.WellFormed
  wholeWell : whole.WellFormed
  copied : ∀ (id : NodeId) (node : Node), part.nodes[id]? = some node →
    whole.nodes[place id]? = some (node.moved place)
  injective : ∀ id < part.size, ∀ id' < part.size, place id = place id' → id = id'
  covered : ∀ id < whole.size, id ∈ others ∨ ∃ i < part.size, place i = id
  /-- Inputs are copies. -/
  inputs : ∀ (id : NodeId) (w : Nat) (name : String),
    whole.nodes[id]? = some ⟨w, .input name⟩ → ∃ i < part.size, place i = id

namespace Copy

/-- A wire without a driver that is no copy. -/
structure Loose (k : Copy) (id : NodeId) : Prop where
  undriven : ∃ w name, k.whole.nodes[id]? = some ⟨w, .wire name none⟩
  outside : ∀ i < k.part.size, k.place i ≠ id

/-- Both circuits have grown and what is copied stays where it is; the nodes given are beside the
copies in the end. -/
structure LeadsTo (k : Copy) (new : List NodeId) (k' : Copy) : Prop where
  part : k.part ≤ k'.part
  whole : k.whole ≤ k'.whole
  place : ∀ id < k.part.size, k'.place id = k.place id
  others : k'.others = new ++ k.others

/-- Both circuits have grown in step: nothing is beside the copies that was not before. -/
structure GrowsTo (k k' : Copy) : Prop extends LeadsTo k [] k' where
  loose : ∀ id, k.Loose id → k'.Loose id

instance : LE Copy := ⟨GrowsTo⟩

variable {k k' k'' : Copy} {new new' : List NodeId}

theorem LeadsTo.refl (k : Copy) : k.LeadsTo [] k :=
  ⟨k.part.le_refl, k.whole.le_refl, fun _ _ => rfl, rfl⟩

theorem LeadsTo.trans (h : k.LeadsTo new k') (h' : k'.LeadsTo new' k'') :
    k.LeadsTo (new' ++ new) k'' where
  part := Circuit.le_trans h.part h'.part
  whole := Circuit.le_trans h.whole h'.whole
  place := fun id hid => by
    rw [h'.place id (Nat.lt_of_lt_of_le hid (Circuit.size_le_of_le h.part)), h.place id hid]
  others := by rw [h'.others, h.others, List.append_assoc]

theorem GrowsTo.leadsTo (h : k ≤ k') : k.LeadsTo [] k' := GrowsTo.toLeadsTo h

theorem le_refl (k : Copy) : k ≤ k := ⟨.refl k, fun _ h => h⟩

theorem le_trans (h : k ≤ k') (h' : k' ≤ k'') : k ≤ k'' :=
  ⟨h.leadsTo.trans h'.leadsTo, fun id hid => h'.loose id (h.loose id hid)⟩

/-- The second node is the copy of the first. -/
structure Places (k : Copy) (a b : NodeId) : Prop where
  lt : a < k.part.size
  eq : b = k.place a

theorem LeadsTo.places (h : k.LeadsTo new k') {a b : NodeId} (hab : k.Places a b) :
    k'.Places a b :=
  ⟨Nat.lt_of_lt_of_le hab.lt (Circuit.size_le_of_le h.part), by rw [hab.eq, h.place a hab.lt]⟩

theorem LeadsTo.forall₂_places (h : k.LeadsTo new k') {l l' : List NodeId}
    (hl : List.Forall₂ k.Places l l') : List.Forall₂ k'.Places l l' :=
  hl.imp fun _ _ hab => h.places hab

theorem Places.mono {a b : NodeId} (h : k.Places a b) (hle : k ≤ k') : k'.Places a b :=
  hle.leadsTo.places h

/-- The fields are the same, and the second node is the copy of the first. -/
structure Binds (k : Copy) (entry entry' : Field × NodeId) : Prop where
  field : entry.1 = entry'.1
  node : k.Places entry.2 entry'.2

theorem Binds.mono {entry entry' : Field × NodeId} (h : k.Binds entry entry') (hle : k ≤ k') :
    k'.Binds entry entry' := ⟨h.field, h.node.mono hle⟩

/-- The bundles have the same fields, and the nodes of the second are the copies of those of the
first. -/
def Carries (k : Copy) (a b : Bundle) : Prop := List.Forall₂ k.Binds a.entries b.entries

theorem Carries.mono {a b : Bundle} (h : k.Carries a b) (hle : k ≤ k') : k'.Carries a b :=
  h.imp fun _ _ hentry => hentry.mono hle

theorem Carries.fields_eq {a b : Bundle} (h : k.Carries a b) : b.fields = a.fields := by
  have hfirst : List.Forall₂ (fun entry entry' : Field × NodeId => entry.1 = entry'.1)
      a.entries b.entries := h.imp fun _ _ hentry => hentry.field
  exact (List.forall₂_eq_eq_eq ▸ List.forall₂_map_left_iff.mpr
    (List.forall₂_map_right_iff.mpr hfirst) : a.fields = b.fields).symm

theorem Carries.nodes {a b : Bundle} (h : k.Carries a b) :
    List.Forall₂ k.Places a.nodes b.nodes := by
  unfold Bundle.nodes
  rw [List.forall₂_map_left_iff, List.forall₂_map_right_iff]
  exact h.imp fun _ _ hentry => hentry.node

/-- The first so many nodes have their copies at their own places. -/
structure Fixes (k : Copy) (n : Nat) : Prop where
  le : n ≤ k.part.size
  eq : ∀ id < n, k.place id = id

theorem LeadsTo.fixes (h : k.LeadsTo new k') {n : Nat} (hn : k.Fixes n) : k'.Fixes n where
  le := Nat.le_trans hn.le (Circuit.size_le_of_le h.part)
  eq := fun id hid => by rw [h.place id (Nat.lt_of_lt_of_le hid hn.le), hn.eq id hid]

theorem Fixes.mono {n : Nat} (h : k.Fixes n) (hle : k ≤ k') : k'.Fixes n := hle.leadsTo.fixes h

theorem Fixes.fewer {n n' : Nat} (h : k.Fixes n') (hle : n ≤ n') : k.Fixes n :=
  ⟨Nat.le_trans hle h.le, fun id hid => h.eq id (Nat.lt_of_lt_of_le hid hle)⟩

theorem Fixes.places {n : Nat} (h : k.Fixes n) {id : NodeId} (hid : id < n) : k.Places id id :=
  ⟨Nat.lt_of_lt_of_le hid h.le, (h.eq id hid).symm⟩

/-! ### What a copy has in common with what is copied -/

theorem Places.copied {a b : NodeId} (h : k.Places a b) : ∃ node, k.part.nodes[a]? = some node ∧
    k.whole.nodes[b]? = some (node.moved k.place) := by
  obtain ⟨hlt, rfl⟩ := h
  exact ⟨_, Array.getElem?_eq_getElem hlt, k.copied a _ (Array.getElem?_eq_getElem hlt)⟩

theorem Places.lt_size {a b : NodeId} (h : k.Places a b) : b < k.whole.size := by
  obtain ⟨node, -, hcopy⟩ := h.copied
  exact (Array.getElem?_eq_some_iff.mp hcopy).1

theorem Places.width_eq {a b : NodeId} (h : k.Places a b) : k.whole.width b = k.part.width a := by
  obtain ⟨node, hnode, hcopy⟩ := h.copied
  rw [Circuit.width_eq_ok_iff.mpr ⟨_, hnode, rfl⟩, Circuit.width_eq_ok_iff.mpr ⟨_, hcopy, rfl⟩]
  rfl

theorem operand_lt {id : NodeId} {node : Node} (h : k.part.nodes[id]? = some node) {o : NodeId}
    (ho : o ∈ node.gate.operands) : o < k.part.size :=
  (k.partWell.fits id node h).operand_lt ho

/-- A copy computes of the words of the copies what is computed of the words of the nodes. -/
theorem nodeWord_moved (k : Copy) {applied applied' word word' : NodeId → Nat} {id : NodeId}
    {node : Node} (hnode : k.part.nodes[id]? = some node)
    (happlied : applied' (k.place id) = applied id)
    (hword : ∀ o ∈ node.gate.operands, word' (k.place o) = word o) :
    k.whole.nodeWord applied' word' (k.place id) (node.moved k.place) =
      k.part.nodeWord applied word id node := by
  have hwidth : ∀ o ∈ node.gate.operands, k.whole.widthD (k.place o) = k.part.widthD o := by
    intro o ho
    obtain ⟨other, hother, hcopy⟩ := Places.copied (k := k) ⟨operand_lt hnode ho, rfl⟩
    unfold Circuit.widthD
    rw [hother, hcopy]
    rfl
  obtain ⟨width, gate⟩ := node
  unfold Circuit.nodeWord Node.moved
  congr 1
  cases gate with
  | input name => exact happlied
  | constant value => rfl
  | wire name driver =>
      cases driver with
      | none => rfl
      | some driver => exact hword driver (by simp [Gate.operands])
  | unary op operand =>
      simp [Gate.moved, hword operand (by simp [Gate.operands]),
        hwidth operand (by simp [Gate.operands])]
  | binary op left right =>
      simp [Gate.moved, hword left (by simp [Gate.operands]),
        hword right (by simp [Gate.operands]), hwidth left (by simp [Gate.operands])]
  | mux select ifTrue ifFalse =>
      simp [Gate.moved, hword select (by simp [Gate.operands]),
        hword ifTrue (by simp [Gate.operands]), hword ifFalse (by simp [Gate.operands])]
  | oneHot selects values =>
      show ((selects.map k.place).zip (values.map k.place)).foldl _ 0 = _
      rw [List.zip_map, List.foldl_map]
      refine List.foldl_ext _ _ _ fun folded pair hpair => ?_
      have hselect := hword pair.1 (List.mem_append_left _ (List.of_mem_zip hpair).1)
      have hvalue := hword pair.2 (List.mem_append_right _ (List.of_mem_zip hpair).2)
      simp [hselect, hvalue]

/-! ### Growing in step -/

/-- A node can be appended to the part if its copy is in the whole then: it was there before, or it
is appended as well. -/
structure Extends (k : Copy) (node : Node) (whole : Circuit) (target : NodeId) : Prop where
  part : Circuit.WellFormed ⟨k.part.nodes.push node⟩
  well : whole.WellFormed
  earlier : ∀ o ∈ node.gate.operands, o < k.part.size
  le : k.whole ≤ whole
  same : ∀ id : NodeId, id ≠ target → whole.nodes[id]? = k.whole.nodes[id]?
  copied : whole.nodes[target]? = some (node.moved k.place)
  fresh : ∀ i < k.part.size, k.place i ≠ target
  settled : ¬ k.Loose target

section Extends

variable {node : Node} {whole : Circuit} {target : NodeId}

/-- The places after one more node has got its copy. -/
def placeLast (k : Copy) (target id : NodeId) : NodeId :=
  if id = k.part.size then target else k.place id

theorem placeLast_of_lt {id : NodeId} (h : id < k.part.size) :
    k.placeLast target id = k.place id := if_neg (Nat.ne_of_lt h)

theorem placeLast_size : k.placeLast target k.part.size = target := if_pos rfl

theorem lt_size_push {id : NodeId} :
    id < Circuit.size ⟨k.part.nodes.push node⟩ ↔ id < k.part.size ∨ id = k.part.size := by
  show id < (k.part.nodes.push node).size ↔ _
  rw [Array.size_push]
  exact Nat.lt_succ_iff_lt_or_eq

theorem moved_placeLast {other : Node} (h : ∀ o ∈ other.gate.operands, o < k.part.size) :
    other.moved (k.placeLast target) = other.moved k.place :=
  Node.moved_congr fun o ho => placeLast_of_lt (h o ho)

/-- The copy with one more node. -/
def append (k : Copy) (h : k.Extends node whole target) : Copy where
  part := ⟨k.part.nodes.push node⟩
  whole := whole
  place := k.placeLast target
  others := k.others
  partWell := h.part
  wholeWell := h.well
  copied := by
    intro id other hother
    rcases Circuit.getElem?_push_cases hother with hother | ⟨rfl, rfl⟩
    · have hid := (Array.getElem?_eq_some_iff.mp hother).1
      rw [moved_placeLast fun o ho => operand_lt hother ho, placeLast_of_lt hid,
        h.same _ (h.fresh id hid)]
      exact k.copied id other hother
    · rw [moved_placeLast h.earlier, placeLast_size, h.copied]
  injective := by
    intro id hid id' hid' heq
    rcases lt_size_push.mp hid with hid | rfl
    · rw [placeLast_of_lt hid] at heq
      rcases lt_size_push.mp hid' with hid' | rfl
      · rw [placeLast_of_lt hid'] at heq
        exact k.injective id hid id' hid' heq
      · rw [placeLast_size] at heq
        exact absurd heq (h.fresh id hid)
    · rw [placeLast_size] at heq
      rcases lt_size_push.mp hid' with hid' | rfl
      · rw [placeLast_of_lt hid'] at heq
        exact absurd heq.symm (h.fresh id' hid')
      · rfl
  covered := by
    intro id hid
    by_cases htarget : id = target
    · exact .inr ⟨k.part.size, lt_size_push.mpr (.inr rfl), by rw [placeLast_size, htarget]⟩
    · have hnode := h.same id htarget
      rw [Array.getElem?_eq_getElem hid] at hnode
      have hold := (Array.getElem?_eq_some_iff.mp hnode.symm).1
      rcases k.covered id hold with hother | ⟨i, hi, heq⟩
      · exact .inl hother
      · exact .inr ⟨i, lt_size_push.mpr (.inl hi), by rw [placeLast_of_lt hi, heq]⟩
  inputs := by
    intro id w name hinput
    by_cases htarget : id = target
    · exact ⟨k.part.size, lt_size_push.mpr (.inr rfl), by rw [placeLast_size, htarget]⟩
    · rw [h.same id htarget] at hinput
      obtain ⟨i, hi, heq⟩ := k.inputs id w name hinput
      exact ⟨i, lt_size_push.mpr (.inl hi), by rw [placeLast_of_lt hi, heq]⟩

theorem le_append (h : k.Extends node whole target) : k ≤ k.append h where
  part := k.part.le_push node
  whole := h.le
  place := fun _ hid => placeLast_of_lt hid
  others := rfl
  loose := by
    intro id hid
    have hne : id ≠ target := fun heq => h.settled (heq ▸ hid)
    refine ⟨?_, fun i hi => ?_⟩
    · obtain ⟨w, name, hnode⟩ := hid.undriven
      exact ⟨w, name, (h.same id hne).trans hnode⟩
    · rcases lt_size_push.mp hi with hi | rfl
      · exact fun heq => hid.outside i hi ((placeLast_of_lt hi).symm.trans heq)
      · exact fun heq => hne (heq.symm.trans placeLast_size)

theorem append_places (h : k.Extends node whole target) :
    (k.append h).Places k.part.size target :=
  ⟨lt_size_push.mpr (.inr rfl), placeLast_size.symm⟩

/-- The copy is appended as well. -/
theorem extends_push (hpart : Circuit.WellFormed ⟨k.part.nodes.push node⟩)
    (hwhole : Circuit.WellFormed ⟨k.whole.nodes.push (node.moved k.place)⟩)
    (hearlier : ∀ o ∈ node.gate.operands, o < k.part.size) :
    k.Extends node ⟨k.whole.nodes.push (node.moved k.place)⟩ k.whole.size where
  part := hpart
  well := hwhole
  earlier := hearlier
  le := k.whole.le_push _
  same := fun _ hid => Array.getElem?_push.trans (if_neg hid)
  copied := Array.getElem?_push_size
  fresh := fun _ hi => Nat.ne_of_lt (Places.lt_size ⟨hi, rfl⟩)
  settled := fun hloose =>
    have ⟨_, _, hnode⟩ := hloose.undriven
    absurd (Array.getElem?_eq_some_iff.mp hnode).1 (Nat.lt_irrefl _)

/-- A constant was in the whole before. -/
theorem extends_constant {w value : Nat}
    (hpart : Circuit.WellFormed ⟨k.part.nodes.push ⟨w, .constant value⟩⟩)
    (hnone : ∀ id : NodeId, k.part.nodes[id]? ≠ some ⟨w, .constant value⟩)
    (hnode : k.whole.nodes[target]? = some ⟨w, .constant value⟩) :
    k.Extends ⟨w, .constant value⟩ k.whole target where
  part := hpart
  well := k.wholeWell
  earlier := by simp [Gate.operands]
  le := k.whole.le_refl
  same := fun _ _ => rfl
  copied := hnode
  fresh := by
    rintro i hi rfl
    obtain ⟨⟨width, gate⟩, hi, hcopy⟩ := Places.copied (k := k) ⟨hi, rfl⟩
    rw [hnode] at hcopy
    obtain ⟨rfl, hgate⟩ := Node.mk.inj (Option.some.inj hcopy)
    cases gate <;> simp [Gate.moved] at hgate
    exact hnone i (hgate ▸ hi)
  settled := by
    intro hloose
    obtain ⟨_, _, hwire⟩ := hloose.undriven
    rw [hnode] at hwire
    cases hwire

end Extends

section Drive

variable {target source : NodeId} {w : Nat} {name : String}

theorem size_drive (c : Circuit) (target : NodeId) (node : Node) :
    Circuit.size ⟨c.nodes.setIfInBounds target node⟩ = c.size := Array.size_setIfInBounds

/-- A wire and its copy get their drivers, a node and its copy. -/
def drive (k : Copy) (htarget : k.part.nodes[target]? = some ⟨w, .wire name none⟩)
    (hsource : k.part.width source = .ok w) : Copy where
  part := ⟨k.part.nodes.setIfInBounds target ⟨w, .wire name (some source)⟩⟩
  whole := ⟨k.whole.nodes.setIfInBounds (k.place target) ⟨w, .wire name (some (k.place source))⟩⟩
  place := k.place
  others := k.others
  partWell := k.partWell.drive htarget hsource
  wholeWell := k.wholeWell.drive (k.copied target _ htarget)
    ((Places.width_eq ⟨Circuit.lt_size_of_width hsource, rfl⟩).trans hsource)
  copied := by
    intro id node hnode
    have htargetLt := (Array.getElem?_eq_some_iff.mp htarget).1
    have hcopyLt := (Array.getElem?_eq_some_iff.mp (k.copied target _ htarget)).1
    by_cases hid : target = id
    · subst hid
      rw [Array.getElem?_setIfInBounds_self, if_pos htargetLt] at hnode
      rw [Array.getElem?_setIfInBounds_self, if_pos hcopyLt, ← Option.some.inj hnode]
      rfl
    · rw [Array.getElem?_setIfInBounds_ne hid] at hnode
      have hidLt := (Array.getElem?_eq_some_iff.mp hnode).1
      have hne : k.place target ≠ k.place id :=
        fun heq => hid (k.injective target htargetLt id hidLt heq)
      rw [Array.getElem?_setIfInBounds_ne hne]
      exact k.copied id node hnode
  injective := by
    rw [size_drive]
    exact k.injective
  covered := by
    rw [size_drive, size_drive]
    exact k.covered
  inputs := by
    intro id w' name' hinput
    rw [size_drive]
    rcases Circuit.getElem?_drive_cases hinput with hinput | ⟨-, hwire⟩
    · exact k.inputs id w' name' hinput
    · cases hwire

theorem le_drive (htarget : k.part.nodes[target]? = some ⟨w, .wire name none⟩)
    (hsource : k.part.width source = .ok w) : k ≤ k.drive htarget hsource where
  part := Circuit.le_drive htarget
  whole := Circuit.le_drive (k.copied target _ htarget)
  place := fun _ _ => rfl
  others := rfl
  loose := by
    intro id hid
    refine ⟨?_, fun i hi => hid.outside i (Nat.lt_of_lt_of_eq hi (size_drive ..))⟩
    obtain ⟨w', name', hnode⟩ := hid.undriven
    have hne := hid.outside target (Array.getElem?_eq_some_iff.mp htarget).1
    exact ⟨w', name', (Array.getElem?_setIfInBounds_ne hne).trans hnode⟩

end Drive

end Copy
end Interlock
