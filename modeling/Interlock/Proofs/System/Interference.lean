/-
Unrelated declarations do not interfere.

A transaction that is declared last, calls nothing and is mentioned by nothing gets one constant,
one gate and the driver of its run wire.  The rest of the finished circuit is a copy of the circuit
that the design is finished to without it: every request that wires the old plan is followed by the
same request, and what the newcomer needs is added beside the copies.  So the circuit can be
evaluated if it could be without the newcomer, and every copy carries the word it carried, whatever
is applied to the inputs; and the newcomer runs whenever it asks to.  All this rests on validators
and combiners that make the same requests of copies as of the originals: one that counts nodes sees
the newcomer.
-/
import Interlock.Proofs.Blueprint.Designed
import Interlock.Proofs.Circuit.Beside
import Interlock.Proofs.Circuit.CopiedWords
import Interlock.Proofs.System.Newcomer
import Interlock.Proofs.System.Running

namespace Interlock

/-! ### The logic of the newcomer -/

theorem Word.isHigh_truncate_bit (value : Nat) : isHigh (truncate 1 value) = isHigh value := by
  show (value % 2 % 2 == 1) = (value % 2 == 1)
  rw [Nat.mod_mod]

/-- Nothing is beside the copies but a constant, a gate that conjoins the request with it, and the
run wire, which the gate drives. -/
structure Copy.Hosts (k : Copy) (newcomer : Action) (high node : NodeId) : Prop where
  constant : k.whole.nodes[high]? = some ⟨1, .constant 1⟩
  gate : k.whole.nodes[node]? = some ⟨1, .binary .and newcomer.ready high⟩
  wire : ∃ name, k.whole.nodes[newcomer.run]? = some ⟨1, .wire name (some node)⟩
  others : ∀ id ∈ k.others, id = high ∨ id = node ∨ id = newcomer.run

namespace Copy.Hosts

variable {k : Copy} {newcomer : Action} {high node : NodeId} (h : k.Hosts newcomer high node)
include h

/-- No wire of the newcomer is left without a driver. -/
theorem driven : ∀ id ∈ k.others, ∀ w name, k.whole.nodes[id]? ≠ some ⟨w, .wire name none⟩ := by
  intro id hid w name hwire
  obtain ⟨run, hrun⟩ := h.wire
  rcases h.others id hid with rfl | rfl | rfl
  · rw [h.constant] at hwire
    cases hwire
  · rw [h.gate] at hwire
    cases hwire
  · rw [hrun] at hwire
    cases hwire

/-- Nothing of the newcomer waits for itself, if its request does not. -/
theorem acc (hready : Acc k.whole.Reads newcomer.ready) :
    ∀ id ∈ k.others, Acc k.whole.Reads id := by
  obtain ⟨run, hrun⟩ := h.wire
  have hhigh : Acc k.whole.Reads high := by
    refine .intro _ fun o ho => ?_
    rw [Circuit.Reads, Circuit.operandsOf_of_node h.constant] at ho
    cases ho
  have hnode : Acc k.whole.Reads node := by
    refine .intro _ fun o ho => ?_
    rw [Circuit.Reads, Circuit.operandsOf_of_node h.gate] at ho
    rcases List.mem_pair.mp ho with rfl | rfl
    · exact hready
    · exact hhigh
  intro id hid
  rcases h.others id hid with rfl | rfl | rfl
  · exact hhigh
  · exact hnode
  · refine .intro _ fun o ho => ?_
    rw [Circuit.Reads, Circuit.operandsOf_of_node hrun] at ho
    rw [List.mem_singleton.mp ho]
    exact hnode

/-- The gate of the newcomer is high if its request is, and so is its run wire. -/
theorem bits {applied : NodeId → Nat} {v : Valuation}
    (hagrees : ∀ (id : NodeId) (node : Node), k.whole.nodes[id]? = some node →
      v.word id = k.whole.nodeWord applied v.word id node) :
    v.bit node = v.bit newcomer.ready ∧ v.bit newcomer.run = v.bit newcomer.ready := by
  obtain ⟨run, hrun⟩ := h.wire
  have hhigh : v.bit high = true := by
    unfold Valuation.bit
    rw [hagrees _ _ h.constant]
    rfl
  have hnode : v.bit node = v.bit newcomer.ready := by
    have hand : v.bit node = (v.bit newcomer.ready && v.bit high) := by
      unfold Valuation.bit
      rw [hagrees _ _ h.gate, Circuit.nodeWord, Word.isHigh_truncate_bit, ← Word.isHigh_and]
      rfl
    rw [hand, hhigh, Bool.and_true]
  refine ⟨hnode, ?_⟩
  rw [← hnode]
  unfold Valuation.bit
  rw [hagrees _ _ hrun, Circuit.nodeWord, Word.isHigh_truncate_bit]
  rfl

/-- What can be evaluated can be evaluated with the newcomer beside it. -/
theorem exists_evaluator {n : Nat} (hfixes : k.Fixes n) (hready : newcomer.ready < n)
    {evaluator : Evaluator} (hevaluator : Evaluator.ofCircuit k.part = .ok evaluator) :
    ∃ evaluator', Evaluator.ofCircuit k.whole = .ok evaluator' := by
  have horder := Circuit.evaluationOrder_ordered evaluator.ordered
  rw [Evaluator.circuit_of_ofCircuit hevaluator] at horder
  refine Copy.exists_evaluator hevaluator h.driven (h.acc ?_)
  rw [← hfixes.eq _ hready]
  exact acc_place (horder.acc _) (hfixes.places hready).lt

end Copy.Hosts

/-! ### The wiring on a copy -/

namespace Wiring

variable {n : Nat} {plan : Plan} {newcomer : Action} {contention contention' : Contention}
  {k : Copy}

/-- Up to the grants the wiring is made of copies.  Beside them there are the constant that says
that the newcomer's calls are accepted, and the gate that says that the newcomer could run. -/
theorem runnable_beside (hplan : plan.Within n) (hfixes : k.Fixes n)
    (hcalls : plan.calls.Between plan.roster.size) (hready : newcomer.ready < n)
    (hbit : k.whole.width newcomer.ready = .ok 1) {candidates : List Candidate}
    (hmembers : ∀ candidate ∈ candidates, ∀ t ∈ candidate.members, t < plan.roster.size)
    {accepted : Accepted} {runnable : List NodeId} {c₁ c₂ : Circuit}
    (haccepted : (acceptAll plan).Yields k.part accepted c₁)
    (hrunnable : (candidates.mapM (candidateRunnable plan accepted)).Yields c₁ runnable c₂) :
    ∃ (k' : Copy) (accepted' : Accepted) (runnable' new : List NodeId) (high node : NodeId)
      (w₁ w₂ w₃ : Circuit), k'.part = c₂ ∧
      ((acceptAll plan).Yields k.whole accepted' w₁ ∧
        (∀ entry ∈ accepted', entry.1 < plan.roster.size) ∧ Build.high.Yields w₁ high w₂ ∧
        (candidates.mapM (candidateRunnable plan accepted')).Yields w₂ runnable' w₃ ∧
        (Build.and newcomer.ready high).Yields w₃ node k'.whole) ∧
      k.LeadsTo (node :: new) k' ∧ (∀ id, k.Loose id → k'.Loose id) ∧
      List.Forall₂ k'.Places runnable runnable' ∧ (∀ id ∈ new, id = high) ∧
      k'.whole.nodes[high]? = some ⟨1, .constant 1⟩ ∧
      k'.whole.nodes[node]? = some ⟨1, .binary .and newcomer.ready high⟩ := by
  have hpos : 0 < n := Nat.zero_lt_of_lt hready
  obtain ⟨k₁, accepted', rfl, haccepted', hle₁, hkeyed⟩ :=
    acceptAll_follows hplan hcalls hfixes _ _ haccepted
  obtain ⟨k₂, high, new, hpart₂, hhigh, hleads₂, hloose₂, hconstant₂, hnew⟩ := Build.high_beside k₁
  have hfixes₂ := hleads₂.fixes (hfixes.mono hle₁)
  rw [← hpart₂] at hrunnable
  obtain ⟨k₃, runnable', rfl, hrunnable', hle₃, hplaces⟩ := runnable_follows hplan hfixes₂
    (hfixes₂.places hpos) (hleads₂.keyed hkeyed) hmembers _ _ hrunnable
  have hwhole : k.whole ≤ k₃.whole :=
    Circuit.le_trans hle₁.whole (Circuit.le_trans hleads₂.whole hle₃.whole)
  have hconstant₃ : k₃.whole.nodes[high]? = some ⟨1, .constant 1⟩ :=
    Circuit.node_of_le hle₃.whole hconstant₂ (by simp)
  obtain ⟨k₄, node, hpart₄, hand, hleads₄, hloose₄, hgate⟩ := Build.and_beside k₃
    (Circuit.width_of_le hwhole hbit) (Circuit.width_eq_ok_iff.mpr ⟨_, hconstant₃, rfl⟩)
  have hleads := ((hle₁.leadsTo.trans hleads₂).trans hle₃.leadsTo).trans
    hleads₄
  refine ⟨k₄, accepted', runnable', new, high, node, _, _, _, hpart₄,
    ⟨haccepted', hkeyed.keys, hhigh, hrunnable', hand⟩, ?_, ?_, hleads₄.forall₂_places hplaces,
    hnew, Circuit.node_of_le hleads₄.whole hconstant₃ (by simp), hgate⟩
  · simpa using hleads
  · exact fun id hid => hloose₄ id (hle₃.loose id (hloose₂ id (hle₁.loose id hid)))

/-- **The wiring is made of copies**, and beside them there is what the newcomer needs. -/
theorem connect_beside (hplan : plan.Within n) (hfixes : k.Fixes n)
    (hready : newcomer.ready < n) (hbit : k.whole.width newcomer.ready = .ok 1)
    (hloose : k.Loose newcomer.run) (hrun : k.whole.width newcomer.run = .ok 1)
    (hothers : k.others = [newcomer.run]) {reach : Reach} (hfollowed : Reach.Followed plan reach)
    (hcontention : contention.slate.plan = plan)
    (horder : ∀ c ∈ contention.order, c < contention.size)
    (h : contention.Joined newcomer contention') {wiring : Wiring} {c : Circuit}
    (hconnect : (connect plan contention .eager).Yields k.part wiring c) :
    ∃ (k' : Copy) (wiring' : Wiring) (high node : NodeId), k'.part = c ∧
      (connect (plan.joinedBy newcomer) contention' .eager).Yields k.whole wiring' k'.whole ∧
        k'.Fixes n ∧ k'.Hosts newcomer high node ∧ ∃ grants, wiring'.grants = grants ++ [node] ∧
          List.Forall₂ k'.Places wiring.grants grants := by
  have hpos : 0 < n := Nat.zero_lt_of_lt hready
  have hmembers : ∀ candidate ∈ contention.candidates, ∀ t ∈ candidate.members,
      t < plan.roster.size := fun _ hcandidate _ ht =>
    hcontention ▸ h.slate.members_lt hcandidate ht
  obtain ⟨accepted, c₁, c₂, c₃, c₄, c₅, haccepted, hrunnable, hgrants, htransactions, hcallRuns,
    hmethods⟩ := connect_yields_iff.mp hconnect
  -- up to the policy; then what it grants, and the run wires of the old transactions
  obtain ⟨k₁, accepted', runnable', new, high, node, w₁, w₂, w₃, rfl,
    ⟨haccepted', hkeys, hhigh, hrunnable', hand⟩, hleads₁, hloose₁, hplaces, hnew, hconstant,
    hgate⟩ :=
    runnable_beside hplan hfixes hfollowed.between hready hbit hmembers haccepted hrunnable
  have hfixes₁ := hleads₁.fixes hfixes
  obtain ⟨k₂, grants', rfl, hgrants', hle₂, hgranted⟩ :=
    Policy.eagerGrants_follows (hfixes₁.places hpos) hplaces horder _ _ hgrants
  have hfixes₂ := hfixes₁.mono hle₂
  obtain ⟨k₃, _, rfl, htransactions', hle₃, -⟩ :=
    runTransactions_follows hplan hfixes₂ (hfixes₂.places hpos) hgranted _ _ htransactions
  -- the newcomer's run wire is no copy, so it is still loose
  have hwhole := Circuit.le_trans hle₂.whole hle₃.whole
  obtain ⟨k₄, name, hpart₄, hdrive, hleads₄, hwire⟩ := Build.drive_beside k₃
    (hle₃.loose _ (hle₂.loose _ (hloose₁ _ hloose)))
    (Circuit.width_of_le (Circuit.le_trans hleads₁.whole hwhole) hrun)
    (Circuit.width_of_le hwhole (Circuit.width_eq_ok_iff.mpr ⟨_, hgate, rfl⟩))
  have hfixes₄ := hleads₄.fixes (hfixes₂.mono hle₃)
  rw [← hpart₄] at hcallRuns
  obtain ⟨k₅, callRuns', rfl, hcallRuns', hle₅, hcalled⟩ :=
    runCalls_follows hplan hfollowed.between hfixes₄ _ _ hcallRuns
  have hfixes₅ := hfixes₄.mono hle₅
  obtain ⟨k₆, _, rfl, hmethods', hle₆, -⟩ :=
    runMethods_follows hplan hfixes₅ (hfixes₅.places hpos) hcalled _ _ hmethods
  -- what was beside the copies is there in the end
  have hend := hle₅.leadsTo.trans hle₆.leadsTo
  have hlater := (hle₂.leadsTo.trans hle₃.leadsTo).trans (hleads₄.trans hend)
  refine ⟨k₆, _, high, node, rfl, connect_joined h hfollowed hcontention horder haccepted' hkeys
    hhigh hrunnable' hand hgrants' htransactions' hdrive hcallRuns' hmethods', hfixes₅.mono hle₆,
    ?_, grants', rfl, ((hle₃.leadsTo.trans hleads₄).trans hend).forall₂_places hgranted⟩
  refine ⟨Circuit.node_of_le hlater.whole hconstant (by simp),
    Circuit.node_of_le hlater.whole hgate (by simp),
    ⟨name, Circuit.node_of_le hend.whole hwire (by simp)⟩, fun id hid => ?_⟩
  rw [(hleads₁.trans hlater).others, hothers] at hid
  simp only [List.nil_append, List.append_nil, List.cons_append, List.mem_cons, List.mem_append,
    List.not_mem_nil, or_false] at hid
  rcases hid with rfl | hid | rfl
  · exact .inr (.inl rfl)
  · exact .inl (hnew id hid)
  · exact .inr (.inr rfl)

/-- The circuit with the newcomer's run wire is a copy of the circuit, and so is what is made of
it. -/
theorem finish_beside {c : Circuit} (hwell : c.WellFormed) (hplan : plan.Within c.size)
    (hrole : newcomer.isTransaction = true) (hbit : c.width newcomer.ready = .ok 1)
    (hrun : newcomer.run = c.size) (name : String) {reach : Reach}
    (hfollowed : Reach.Followed plan reach) (hcontention : contention.slate.plan = plan)
    (horder : ∀ c ∈ contention.order, c < contention.size)
    (h : contention.Joined newcomer contention') {wiring : Wiring} {grounded wired : Circuit}
    (hground : (groundOutputs plan).Yields c () grounded)
    (hconnect : (connect plan contention .eager).Yields grounded wiring wired) :
    ∃ (k : Copy) (wiring' : Wiring) (high node : NodeId) (grounded' : Circuit), k.part = wired ∧
      (groundOutputs (plan.joinedBy newcomer)).Yields ⟨c.nodes.push ⟨1, .wire name none⟩⟩ ()
        grounded' ∧
      (connect (plan.joinedBy newcomer) contention' .eager).Yields grounded' wiring' k.whole ∧
      k.Fixes c.size ∧ k.Hosts newcomer high node ∧
      ∃ grants, wiring'.grants = grants ++ [node] ∧ List.Forall₂ k.Places wiring.grants grants := by
  have hready := Circuit.lt_size_of_width hbit
  obtain ⟨k₀, hpart, hwhole, hfixes, hloose, hothers⟩ := Copy.exists_wire hwell name
  rw [← hpart] at hground hbit
  obtain ⟨k₁, _, rfl, hground', hle, -⟩ := groundOutputs_follows hfixes hplan _ _ hground
  have hfixes₁ := hfixes.mono hle
  have hbit₁ : k₁.whole.width newcomer.ready = .ok 1 := by
    rw [(hfixes₁.places hready).width_eq]
    exact Circuit.width_of_le hle.part hbit
  rw [← hrun] at hloose hothers
  have hrun₁ : k₁.whole.width newcomer.run = .ok 1 := by
    refine Circuit.width_of_le hle.whole
      (Circuit.width_eq_ok_iff.mpr ⟨⟨1, .wire name none⟩, ?_, rfl⟩)
    rw [hwhole, hrun]
    exact Array.getElem?_push_size
  obtain ⟨k₂, wiring', high, node, hpart₂, hconnect', hbeside⟩ :=
    connect_beside hplan hfixes₁ hready hbit₁ (hle.loose _ hloose) hrun₁ (hle.others.trans hothers)
      hfollowed hcontention horder h hconnect
  refine ⟨k₂, wiring', high, node, k₁.whole, hpart₂, ?_, hconnect', hbeside⟩
  rw [groundOutputs_joinedBy hrole, ← hwhole]
  exact hground'

end Wiring

/-! ### Cycles -/

theorem Stimulus.moved_of_fixes {place : NodeId → NodeId} {n : Nat}
    (hplace : ∀ id < n, place id = id) {stimulus : Stimulus}
    (h : ∀ entry ∈ stimulus.assigned, entry.1 < n) :
    stimulus.moved place = stimulus := by
  obtain ⟨assigned⟩ := stimulus
  unfold moved
  congr 1
  have hsame : (assigned.map fun entry => (place entry.1, entry.2)) = assigned.map id := by
    refine List.map_congr_left fun entry hentry => ?_
    rw [hplace entry.1 (h entry hentry)]
    rfl
  rw [hsame, List.map_id]

namespace System

/-- The cycles show the same words at the first nodes, the same grants and run bits, and the same
arguments of methods; in the second one more candidate is granted, and one more transaction runs,
whenever the request is high. -/
structure Mirrors (n : Nat) (request : NodeId) (system : System) (v : Valuation) (system' : System)
    (v' : Valuation) : Prop where
  words : ∀ id < n, v'.word id = v.word id
  runs : system'.runs v' = system.runs v ++ [v.bit request]
  grants : system'.wiring.grants.map v'.bit = system.wiring.grants.map v.bit ++ [v.bit request]
  dataIn : (system'.roster.methods.map fun method => v'.fields method.2.dataIn) =
    system.roster.methods.map fun method => v.fields method.2.dataIn

/-- The second system has one more transaction, which is a candidate by itself, and whatever is
applied to the inputs, nothing else runs otherwise.  The first nodes are where they were; the others
have got other places. -/
structure Undisturbed (n : Nat) (t : ActionId) (request : NodeId) (system system' : System)
    (place : NodeId → NodeId) : Prop where
  number : t = system.roster.size
  candidates : ∃ own : Candidate, own.members = [t] ∧
    system'.contention.candidates = system.contention.candidates ++ [own]
  others : ∀ candidate ∈ system.contention.candidates, t ∉ candidate.members
  places : ∀ id < n, place id = id
  inputs : ∀ stimulus : Stimulus, (∀ entry ∈ stimulus.assigned, entry.1 < n) →
    stimulus.moved place = stimulus
  cycles : ∀ stimulus v, system.evaluate stimulus = .ok v →
    ∃ v', system'.evaluate (stimulus.moved place) = .ok v' ∧ Mirrors n request system v system' v'

end System

namespace Copy.Hosts

variable {k : Copy} {n : Nat} {plan : Plan} {newcomer : Action} {high node : NodeId}
  {system system' : System}

/-- What a copy with the newcomer's logic beside it carries mirrors what the circuit carries. -/
theorem mirrors (h : k.Hosts newcomer high node) (hfixes : k.Fixes n) (hplan : plan.Within n)
    (hready : newcomer.ready < n) (hrole : newcomer.isTransaction = true)
    (hroster : system.roster = plan.roster) (hroster' : system'.roster = plan.roster.push newcomer)
    {grants : List NodeId} (hgrants : system'.wiring.grants = grants ++ [node])
    (hplaces : List.Forall₂ k.Places system.wiring.grants grants) {v v' : Valuation}
    (hword : ∀ id < k.part.size, v'.word (k.place id) = v.word id) {applied : NodeId → Nat}
    (hagrees : ∀ (id : NodeId) (node : Node), k.whole.nodes[id]? = some node →
      v'.word id = k.whole.nodeWord applied v'.word id node) :
    System.Mirrors n newcomer.ready system v system' v' := by
  have hwords : ∀ id < n, v'.word id = v.word id := by
    intro id hid
    have hplace := hword id (Nat.lt_of_lt_of_le hid hfixes.le)
    rwa [hfixes.eq id hid] at hplace
  have hbit : ∀ id < n, v'.bit id = v.bit id := fun id hid => congrArg Word.isHigh (hwords id hid)
  obtain ⟨hnode, hrun⟩ := h.bits hagrees
  refine ⟨hwords, ?_, ?_, ?_⟩
  · have hactions : (plan.roster.push newcomer).actions.toList =
        plan.roster.actions.toList ++ [newcomer] := Array.toList_push
    unfold System.runs
    rw [hroster, hroster', hactions, List.map_append, List.map_singleton, hrun, hbit _ hready]
    congr 1
    refine List.map_congr_left fun action haction => ?_
    obtain ⟨id, hid⟩ := List.mem_iff_getElem?.mp haction
    rw [Array.getElem?_toList] at hid
    exact hbit _ (hplan.actions id action hid).run
  · have hcopies : grants.map v'.bit = system.wiring.grants.map v.bit := by
      have hsame : List.Forall₂ (fun a b => v.bit a = v'.bit b) system.wiring.grants grants :=
        hplaces.imp fun a b hab => by
          rw [hab.eq]
          exact (congrArg Word.isHigh (hword a hab.lt)).symm
      rw [← List.forall₂_eq_eq_eq, List.forall₂_map_left_iff, List.forall₂_map_right_iff]
      exact hsame.flip.imp fun _ _ heq => heq.symm
    rw [hgrants, List.map_append, List.map_singleton, hcopies, hnode, hbit _ hready]
  · rw [hroster, hroster', Roster.methods_push hrole]
    refine List.map_congr_left fun method hmethod => List.map_congr_left fun node hnode => ?_
    obtain ⟨haction, -⟩ := Roster.mem_methods.mp hmethod
    exact hwords node ((hplan.actions _ _ haction).dataIn node hnode)

end Copy.Hosts

/-- A design with one more transaction can be finished if it could without, and nothing else runs
otherwise. -/
theorem finish_undisturbed {d : Declarations} (hd : d.Designed) {newcomer : Action}
    (hrole : newcomer.isTransaction = true) (hbit : d.circuit.width newcomer.ready = .ok 1)
    (hrun : newcomer.run = d.circuit.size) (name : String) {system : System}
    (hfinish : d.finish .eager = .ok system) :
    ∃ system' place, Declarations.finish
        ⟨⟨d.circuit.nodes.push ⟨1, .wire name none⟩⟩, d.plan.joinedBy newcomer⟩ .eager =
          .ok system' ∧
      System.Undisturbed d.circuit.size d.plan.roster.size newcomer.ready system system' place := by
  obtain ⟨grounded, wired, hground, hcontention, hconnect, hevaluator, hsystem, -⟩ :=
    finish_eq_ok_iff.mp hfinish
  have hanchored := hd.declared.anchored
  have hplan : d.plan.Within d.circuit.size := ⟨hanchored.actions, hanchored.sites, hd.uniform⟩
  have hready := Circuit.lt_size_of_width hbit
  obtain ⟨reach, hreach, hof⟩ := bind_eq_ok_iff.mp hcontention
  have hfollowed := Reach.ofPlan_followed hreach
  have hworked := Contention.ofReach_workedOut hof
  have hslate : system.contention.slate.plan = d.plan := by
    show system.contention.slate.reach.plan = d.plan
    rw [hworked.reach_eq, hfollowed.plan_eq]
  obtain ⟨contention', hcontention', hjoined⟩ :=
    Contention.ofPlan_joined hrole hanchored.couplings hcontention
  obtain ⟨k, wiring', high, node, grounded', rfl, hground', hconnect', hfixes, hhosts, grants,
    hgrants, hplaces⟩ := Wiring.finish_beside hd.built.wellFormed hplan hrole hbit hrun name
      hfollowed hslate (fun c hc => hworked.mem_order.mp hc) hjoined hground hconnect
  obtain ⟨evaluator', hevaluator'⟩ := hhosts.exists_evaluator hfixes hready hevaluator
  refine ⟨⟨d.plan.joinedBy newcomer, contention', wiring', evaluator', Policy.eager.name⟩, k.place,
    finish_eq_ok_iff.mpr ⟨grounded', k.whole, hground', hcontention', hconnect', hevaluator', rfl,
      rfl⟩, ?_⟩
  have hroster : system.roster = d.plan.roster := congrArg Plan.roster hsystem
  refine ⟨congrArg Roster.size hroster.symm, ⟨_, ?_, hjoined.candidates_eq⟩, ?_, hfixes.eq,
    fun stimulus h => Stimulus.moved_of_fixes hfixes.eq h, ?_⟩
  · show [system.contention.slate.plan.roster.size] = [d.plan.roster.size]
    rw [hslate]
  · intro candidate hcandidate hmember
    exact Nat.lt_irrefl _ (hslate ▸ hjoined.slate.members_lt hcandidate hmember)
  · intro stimulus v heval
    obtain ⟨v', heval', hword⟩ :=
      Copy.evaluate_moved hevaluator hevaluator' (ofCircuit_eq_ok_iff.mp heval)
    have hagrees := Evaluator.evaluate_agrees heval'
    rw [Evaluator.circuit_of_ofCircuit hevaluator'] at hagrees
    exact ⟨v', ofCircuit_eq_ok_iff.mpr heval',
      hhosts.mirrors hfixes hplan hready hrole hroster rfl hgrants hplaces hword hagrees⟩

/-- **Unrelated declarations do not interfere**, provided that validators and combiners are uniform.
A design that can be finished with the eager policy can be finished if one more transaction is
declared after all else, with any request that there is.  Whatever is applied to the inputs, every
action runs if it did, every other candidate is granted if it was, and every method is given the
arguments that it was given; and the new transaction runs if its request is high.

A validator or a combiner may look at the whole circuit, and one that counts its nodes does notice
the newcomer.  The combiners of the library are uniform, and so is all that a blueprint
describes. -/
theorem transaction_does_not_interfere {d d' : Declarations} (hd : d.Declared)
    (hbuilt : d.circuit.Built) (huniform : d.Uniform) {system : System}
    (hfinish : d.finish .eager = .ok system) {name : String} {owner : Option BlockId}
    {request : NodeId} {t : ActionId}
    (hdeclare : (Declare.transaction name owner request).run.run d = (.ok t, d')) :
    ∃ system' place, d'.finish .eager = .ok system' ∧
      System.Undisturbed d.circuit.size t request system system' place := by
  obtain ⟨-, -, hanswered⟩ := Declare.transaction_leaves name owner request _ _ hdeclare
  obtain ⟨rfl, hbit, qualifiedName, rfl⟩ := hanswered t rfl
  exact finish_undisturbed ⟨hd, hbuilt, huniform⟩ rfl hbit rfl (Declare.runName qualifiedName)
    hfinish

/-- A till into which two clerks put small amounts, the second of them only while nobody audits. -/
def tillBlueprint : Blueprint where
  inputs := [⟨"first", 1⟩, ⟨"second", 1⟩, ⟨"audit", 1⟩, ⟨"amount", 4⟩]
  blocks := []
  transactions := [⟨"first_clerk", none, .input "first"⟩, ⟨"second_clerk", none, .input "second"⟩,
    ⟨"auditor", none, .input "audit"⟩]
  methods := [⟨"deposit", none, .high, [⟨"amount", 4⟩], true, false, some .sum, some ⟨"amount", 5⟩⟩]
  calls := [⟨"first_clerk", "deposit", .high, [("amount", .input "amount")]⟩,
    ⟨"second_clerk", "deposit", .high, [("amount", .constant 3)]⟩]
  conflicts := [⟨"auditor", "second_clerk", .left⟩]
  orderings := []
  together := []
  coupled := []

/-- What the blueprint of the till declares. -/
def till : Declarations := ((Assembly.declareAll tillBlueprint).run.run .empty).2

/-- All three ask to run, and the first clerk has two coins. -/
def tillStimulus : Stimulus := ⟨[(0, 1), (1, 1), (2, 1), (3, 2)]⟩

/-- Nobody at the till notices a transaction that watches the second clerk. -/
theorem till_undisturbed : ∃ d' system system' v v',
    (Declare.transaction "watch" none 1).run.run till = (.ok 4, d') ∧
      till.finish .eager = .ok system ∧ d'.finish .eager = .ok system' ∧
      system.evaluate tillStimulus = .ok v ∧ system'.evaluate tillStimulus = .ok v' ∧
      system.runs v = [true, false, true, true] ∧
      system'.runs v' = [true, false, true, true, true] := by
  have hanswer : ((Declare.transaction "watch" none 1).run.run till).1 = .ok 4 := by decide +kernel
  have hpasses : till.passes tillStimulus (fun system v =>
      system.runs v == [true, false, true, true] && v.bit 1) = true := by
    decide +kernel
  have hinputs : ∀ entry ∈ tillStimulus.assigned, entry.1 < till.circuit.size := by decide +kernel
  obtain ⟨system, v, hfinish, heval, hcheck⟩ := exists_of_passes hpasses
  obtain ⟨hruns, hbit⟩ := Bool.and_eq_true_iff.mp hcheck
  have hd : till.Designed :=
    Assembly.declareAll_designs tillBlueprint .empty Declarations.empty_designed
  obtain ⟨system', place, hfinish', h⟩ := transaction_does_not_interfere hd.declared hd.built
    hd.uniform hfinish (Prod.ext hanswer rfl)
  obtain ⟨v', heval', hmirrors⟩ := h.cycles tillStimulus v heval
  rw [h.inputs tillStimulus hinputs] at heval'
  refine ⟨_, system, system', v, v', Prod.ext hanswer rfl, hfinish, hfinish', heval, heval',
    eq_of_beq hruns, ?_⟩
  rw [hmirrors.runs, eq_of_beq hruns, hbit]
  rfl

/-- The validator that takes everything while the circuit has only few nodes, and nothing else. -/
def Validator.whileFew (few : Nat) : Validator := fun _ => do
  let circuit ← get
  if few < circuit.size then Build.low else Build.high

theorem Validator.whileFew_grows (few : Nat) (arguments : Bundle) :
    (whileFew few arguments).Grows := by
  refine Build.bind_grows Build.get_grows fun circuit => ?_
  split
  · exact Build.low_grows
  · exact Build.high_grows

/-- A worker who calls a store, which takes everything while the circuit has four nodes. -/
def crampedStore : Declare Unit := do
  let go ← Declare.logic (Build.input "go" 1)
  let worker ← Declare.transaction "worker" none go
  let store ← Declare.method { name := "store", validator := some (.whileFew 4) }
  let _ ← Declare.call worker store.action go .empty

theorem crampedStore_declares : crampedStore.Declares := by
  have hvalidator : ∀ validator, some (Validator.whileFew 4) = some validator →
      ∀ arguments, (validator arguments).Grows := by
    intro validator hvalidator arguments
    cases hvalidator
    exact Validator.whileFew_grows 4 arguments
  refine Declare.bind_declares (Declare.logic_declares (Build.input_grows _ _)) fun go => ?_
  refine Declare.bind_declares (Declare.transaction_declares _ _ _) fun worker => ?_
  refine Declare.bind_declares (Declare.method_declares hvalidator nofun) fun store => ?_
  refine Declare.bind_declares (Declare.call_declares _ _ _ _) fun _ => ?_
  exact Declare.pure_declares ()

theorem crampedStore_builds : crampedStore.Builds := by
  refine Declare.bind_builds (Declare.logic_builds (Build.builds_of_step fun c =>
    .input c "go" 1)) fun go => ?_
  refine Declare.bind_builds (Declare.transaction_builds _ _ _) fun worker => ?_
  refine Declare.bind_builds (Declare.method_builds _) fun store => ?_
  refine Declare.bind_builds (Declare.call_builds _ _ _ _) fun _ => ?_
  exact Declare.pure_builds ()

/-- The design with the cramped store. -/
def cramped : Declarations := (crampedStore.run.run .empty).2

/-- That validators are uniform is needed.  The worker at the cramped store runs while it is the
only transaction, and does not run any more when there is a second one that reads the same
input. -/
theorem crampedStore_notices : ¬ ∀ (d d' : Declarations) (system : System) (name : String)
    (owner : Option BlockId) (request : NodeId) (t : ActionId), d.Declared → d.circuit.Built →
    d.finish .eager = .ok system → (∃ input, d.circuit.nodes[request]? = some ⟨1, .input input⟩) →
    (Declare.transaction name owner request).run.run d = (.ok t, d') →
    ∃ system', d'.finish .eager = .ok system' ∧ ∀ stimulus v v',
      system.evaluate stimulus = .ok v → system'.evaluate stimulus = .ok v' →
        ∀ a < t, (system'.Runs v' a ↔ system.Runs v a) := by
  intro hundisturbed
  have hpasses : cramped.passes ⟨[(0, 1)]⟩ (fun system v => system.runs v == [true, true]) =
      true := by
    decide +kernel
  have hanswer : ((Declare.transaction "watch" none 0).run.run cramped).1 = .ok 2 := by
    decide +kernel
  have hpasses' : ((Declare.transaction "watch" none 0).run.run cramped).2.passes ⟨[(0, 1)]⟩
      (fun system v => system.runs v == [false, false, true]) = true := by
    decide +kernel
  have hinput : cramped.circuit.nodes[0]? = some ⟨1, .input "go"⟩ := by decide +kernel
  obtain ⟨system, v, hfinish, heval, hruns⟩ := exists_of_passes hpasses
  obtain ⟨system', v', hfinish', heval', hruns'⟩ := exists_of_passes hpasses'
  obtain ⟨found, hfound, hsame⟩ := hundisturbed cramped _ system "watch" none 0 2
    crampedStore_declares.declared (crampedStore_builds .empty) hfinish ⟨"go", hinput⟩
    (Prod.ext hanswer rfl)
  obtain rfl : system' = found := Except.ok.inj (hfinish'.symm.trans hfound)
  have hworker := hsame _ v v' heval heval' 0 (by decide)
  rw [system.runs_iff_getElem?, system'.runs_iff_getElem?, eq_of_beq hruns, eq_of_beq hruns']
    at hworker
  exact absurd (hworker.mpr rfl) (by decide)

end Interlock
