/-
What the wiring of a design computes.

A candidate could run exactly if its members are ready and their calls are accepted, down the
calls.  The run bits are described gate by gate, in terms of the nodes of the wiring and the wires
of the actions, and so are the words that a method is given.  The grants are those of the policy,
of which only this is known that it answered.

All of this is about the finished circuit of a sound design, and holds in every cycle.
-/
import Interlock.Proofs.System.Judgement

namespace Interlock.Wiring

variable {d : Declarations} {s : Settled} {contention : Contention}

/-! ### Candidates -/

theorem readyOf_eq {plan : Plan} {a : ActionId} {action : Action}
    (h : plan.roster.actions[a]? = some action) : readyOf plan a = action.ready := by
  rw [readyOf, h]
  rfl

theorem runOf_eq {plan : Plan} {a : ActionId} {action : Action}
    (h : plan.roster.actions[a]? = some action) : runOf plan a = action.run := by
  rw [runOf, h]
  rfl

/-- A candidate could run exactly if its members are ready and their nodes are high. -/
theorem candidateRunnable_ensures (hd : d.Sound) (accepted : Accepted) {candidate : Candidate}
    (hmembers : ∀ t ∈ candidate.members, t < d.plan.roster.size) :
    (candidateRunnable d.plan accepted candidate).Ensures fun s node =>
      (d.circuit ≤ s.circuit → Memo s d.plan accepted →
        (∀ a < d.plan.roster.size, (accepted.lookup a).isSome = true) → s.IsBit node) ∧
      (s.bit node = true ↔ ∀ t ∈ candidate.members,
        s.bit (readyOf d.plan t) = true ∧ s.bit (nodeOf accepted t) = true) := by
  refine (Build.andAll_ensures _).mono fun s node ⟨hbit, hnode⟩ => ⟨fun hle hmemo hkeys => ?_, ?_⟩
  · refine hbit.mpr fun x hx => ?_
    obtain ⟨t, ht, hx⟩ := List.mem_flatMap.mp hx
    simp only [List.mem_cons, List.not_mem_nil, or_false] at hx
    rcases hx with rfl | rfl
    · obtain ⟨action, haction⟩ : ∃ action, d.plan.roster.actions[t]? = some action :=
        ⟨_, Array.getElem?_eq_getElem (hmembers t ht)⟩
      rw [readyOf_eq haction]
      exact Circuit.width_of_le hle (hd.actions t _ haction).ready
    · obtain ⟨other, hother⟩ := Option.isSome_iff_exists.mp (hkeys t (hmembers t ht))
      obtain ⟨verdict, hweighed⟩ := hmemo t other hother
      rw [hother]
      exact hweighed.isBit other (List.mem_singleton_self _)
  · rw [hnode, List.all_eq_true, List.forall_mem_flatMap]
    simp only [List.forall_mem_cons, List.not_mem_nil, false_implies, implies_true, and_true]
    rfl

/-! ### Run bits -/

theorem bit_eq_of_word_eq {x y : NodeId} (h : s.word x = s.word y) : s.bit x = s.bit y := by
  rw [Settled.bit_eq, Settled.bit_eq, h]

theorem runTransaction_ensures (grants : List NodeId) (id : ActionId) (transaction : Action) :
    (runTransaction contention grants id transaction).Ensures fun s _ =>
      (s.bit transaction.run = true ↔
        ∃ c ∈ contention.holdersOf id, s.bit (grants.getD c 0) = true) := by
  refine Build.bind_ensures (Build.orAll_ensures _) fun granted => ?_
  refine (Build.drive_ensures _ granted).mono fun s _ hword hor => ?_
  rw [bit_eq_of_word_eq hword, hor.2, List.any_map, List.any_eq_true]
  rfl

theorem runCall_ensures (plan : Plan) (site : CallSite) :
    (runCall plan site).Ensures fun s node =>
      s.bit node = (s.bit (runOf plan site.caller) && s.bit site.enable) :=
  (Build.and_ensures _ _).mono fun _ _ h => h.2.2

/-- What the call sites of a method without a combiner give it: the words of its input, which has
the fields given. -/
structure Fed (s : Settled) (callRuns : List NodeId) (sites : List (CallId × CallSite))
    (fields : List Field) (words : List Nat) : Prop where
  shape : ∀ entry ∈ sites, entry.2.arguments.fields = fields
  none : sites = [] → ∀ word ∈ words, word = 0
  only : ∀ entry, sites = [entry] → words = entry.2.arguments.nodes.map s.word
  several : 2 ≤ sites.length → words = (List.range fields.length).map fun i =>
    s.chosen (sites.map fun entry => (callRuns.getD entry.1 0, entry.2.arguments.nodeAt i))

theorem methodInput_grows {method : Action} (hmethod : ∀ combiner,
      method.combiner? = some combiner → ∀ arguments runs, (combiner arguments runs).Grows)
    (arguments : List Bundle) (runs : List NodeId) :
    (methodInput method arguments runs).Grows := by
  unfold methodInput
  dsimp only
  split
  · exact Build.zeros_grows _
  · rename_i combiner _ hcombiner
    refine Build.bind_grows (hmethod combiner hcombiner _ _) fun value => ?_
    exact Build.bind_grows (Build.ofExcept_grows _) fun _ => Build.pure_grows value
  · exact Build.pure_grows _
  · exact Build.select_grows _ _ _

theorem methodInput_ensures {method : Action} (hnone : method.combiner? = none)
    (callRuns : List NodeId) (sites : List (CallId × CallSite)) :
    (methodInput method (sites.map fun entry => entry.2.arguments)
      (sites.map fun entry => callRuns.getD entry.1 0)).Ensures fun s value =>
        value.fields = method.dataIn.fields →
          Fed s callRuns sites value.fields (value.nodes.map s.word) := by
  unfold methodInput
  rw [hnone]
  -- Nothing is combined for no call site or one; for more the arguments are selected.
  rcases sites with _ | ⟨first, _ | ⟨second, rest⟩⟩
  · refine (Build.zeros_ensures _).mono fun s value hzero _ => ?_
    exact ⟨by simp, fun _ => hzero.2, by simp, by simp⟩
  · refine Build.pure_ensures fun s _ => ⟨fun entry hentry => ?_, by simp, fun entry hentry => ?_,
      by simp⟩
    · rw [List.mem_singleton.mp hentry]
    · cases hentry
      rfl
  · refine (Build.select_ensures method.dataIn.fields (List.cons_ne_nil first (second :: rest))
      (fun entry => callRuns.getD entry.1 0) (fun entry => entry.2.arguments)).mono ?_
    intro s value ⟨hfields, hshape, hwords⟩ _
    rw [hfields]
    exact ⟨hshape, nofun, nofun, fun _ => hwords⟩

/-- A combiner that a method has of its own makes its input of the arguments of all call sites. -/
theorem methodInput_combined_ensures {method : Action} (hmethod : ∀ combiner,
      method.combiner? = some combiner → ∀ arguments runs, (combiner arguments runs).Grows)
    (arguments : List Bundle) (runs : List NodeId) :
    (methodInput method arguments runs).Ensures fun s value =>
      ∀ combiner, method.combiner? = some combiner → arguments ≠ [] →
        ∃ c c', s.origin ≤ c ∧ c' ≤ s.circuit ∧ (combiner arguments runs).Yields c value c' := by
  have hgrows := methodInput_grows hmethod arguments runs
  rcases arguments with _ | ⟨first, rest⟩
  · exact hgrows.ensures.mono fun _ _ _ _ _ hsome => absurd rfl hsome
  cases hcombiner : method.combiner? with
  | none => exact hgrows.ensures.mono fun _ _ _ _ h => nomatch h
  | some combiner =>
      unfold methodInput
      rw [hcombiner]
      refine Build.bind_ensures (hmethod combiner hcombiner _ runs).ensures_yields fun value => ?_
      refine Build.bind_ensures (Build.ofExcept_grows _).ensures fun _ => ?_
      refine Build.pure_ensures fun s _ ⟨c, c', hfrom, hyields, hle⟩ other hother _ => ?_
      obtain rfl := Option.some.inj hother
      exact ⟨c, c', hfrom, hle, hyields⟩

/-- What a combiner makes of the arguments of the call sites is given to the method. -/
def Combined (s : Settled) (combiner : Combiner) (callRuns : List NodeId)
    (sites : List (CallId × CallSite)) (dataIn : Bundle) : Prop :=
  ∃ c value c', s.origin ≤ c ∧ c' ≤ s.circuit ∧
    (combiner (sites.map fun entry => entry.2.arguments)
      (sites.map fun entry => callRuns.getD entry.1 0)).Yields c value c' ∧
    value.fields = dataIn.fields ∧ dataIn.nodes.map s.word = value.nodes.map s.word

theorem runMethod_ensures (hd : d.Sound) (callRuns : List NodeId) {id : ActionId} {method : Action}
    (hmethod : d.plan.roster.actions[id]? = some method) :
    (runMethod d.plan callRuns id method).Ensures fun s _ =>
      (s.bit method.run = true ↔ ∃ call site, d.plan.calls.sites[call]? = some site ∧
        site.callee = id ∧ s.bit (callRuns.getD call 0) = true) ∧
      (method.combiner? = none → Fed s callRuns (d.plan.calls.byCallee id) method.dataIn.fields
        (method.dataIn.nodes.map s.word)) ∧
      ∀ combiner, method.combiner? = some combiner → d.plan.calls.byCallee id ≠ [] →
        Combined s combiner callRuns (d.plan.calls.byCallee id) method.dataIn := by
  have hgrows := methodInput_grows (hd.actions id method hmethod).combiner
  have hinput : (methodInput method ((d.plan.calls.byCallee id).map fun entry => entry.2.arguments)
      ((d.plan.calls.byCallee id).map fun entry => callRuns.getD entry.1 0)).Ensures fun s value =>
        method.combiner? = none → value.fields = method.dataIn.fields →
          Fed s callRuns (d.plan.calls.byCallee id) value.fields (value.nodes.map s.word) := by
    cases hcombiner : method.combiner? with
    | none => exact (methodInput_ensures hcombiner _ _).mono fun _ _ hfed _ => hfed
    | some combiner => exact (hgrows _ _).ensures.mono fun _ _ _ h => nomatch h
  have hcombined := methodInput_combined_ensures (hd.actions id method hmethod).combiner
  refine Build.bind_ensures (Build.orAll_ensures _) fun run => ?_
  refine Build.bind_ensures (Build.drive_ensures _ run) fun _ => ?_
  refine Build.bind_ensures (hinput.and (hcombined _ _)) fun value => ?_
  refine (Build.driveAll_ensures _ _).mono
    fun s _ ⟨hfields, hwords⟩ ⟨hfed, hmade⟩ hword hor => ⟨?_, ?_, ?_⟩
  · rw [bit_eq_of_word_eq hword, hor.2, List.any_map, List.any_eq_true]
    constructor
    · rintro ⟨⟨call, site⟩, hmem, hrun⟩
      obtain ⟨hsite, hcallee⟩ := Calls.mem_byCallee.mp hmem
      exact ⟨call, site, hsite, hcallee, hrun⟩
    · rintro ⟨call, site, hsite, hcallee, hrun⟩
      exact ⟨(call, site), Calls.mem_byCallee.mpr ⟨hsite, hcallee⟩, hrun⟩
  · intro hnone
    rw [hwords, ← hfields]
    exact hfed hnone hfields
  · intro combiner hcombiner hcalled
    obtain ⟨c, c', hfrom, hle, hyields⟩ := hmade combiner hcombiner (by simpa using hcalled)
    exact ⟨c, value, c', hfrom, hle, hyields, hfields, hwords⟩

/-! ### All the wiring -/

/-- The nodes that say which candidates could run, given the verdicts on their calls. -/
structure Decides (s : Settled) (plan : Plan) (contention : Contention) (runnable : List NodeId)
    (verdict : CallId → NodeId) : Prop where
  asked : ∀ id site, plan.calls.sites[id]? = some site →
    Asked s.origin s.circuit plan site (verdict id)
  /-- A candidate could run exactly if its transactions are ready and their calls are accepted. -/
  high_iff : ∀ s' : Settled, s'.origin = s.origin → s'.circuit = s.circuit →
    ∀ c candidate, contention.candidates[c]? = some candidate →
      (s'.bit (runnable.getD c 0) = true ↔ ∀ t ∈ candidate.members,
        s'.bit (readyOf plan t) = true ∧ Accepts s' plan verdict t)

/-- What is known of a wired design in one cycle, whatever the policy. -/
structure Wired (s : Settled) (plan : Plan) (contention : Contention) (policy : Policy)
    (wiring : Wiring) : Prop where
  isBit : ∀ node ∈ wiring.runnable, s.IsBit node
  length_eq : wiring.runnable.length = contention.size
  decided : ∃ verdict, Decides s plan contention wiring.runnable verdict
  answered : ∃ c c', s.origin ≤ c ∧
    (policy.grants contention wiring.runnable).Yields c wiring.grants c' ∧ c' ≤ s.circuit
  transaction : ∀ t transaction, (t, transaction) ∈ plan.roster.transactions →
    (s.bit transaction.run = true ↔
      ∃ c ∈ contention.holdersOf t, s.bit (wiring.grants.getD c 0) = true)
  call : ∀ id site, plan.calls.sites[id]? = some site →
    s.bit (wiring.callRuns.getD id 0) = (s.bit (runOf plan site.caller) && s.bit site.enable)
  method : ∀ m method, (m, method) ∈ plan.roster.methods →
    (s.bit method.run = true ↔ ∃ id site, plan.calls.sites[id]? = some site ∧
      site.callee = m ∧ s.bit (wiring.callRuns.getD id 0) = true)
  input : ∀ m method, (m, method) ∈ plan.roster.methods → method.combiner? = none →
    Fed s wiring.callRuns (plan.calls.byCallee m) method.dataIn.fields
      (method.dataIn.nodes.map s.word)
  combined : ∀ m method, (m, method) ∈ plan.roster.methods → ∀ combiner,
    method.combiner? = some combiner → plan.calls.byCallee m ≠ [] →
      Combined s combiner wiring.callRuns (plan.calls.byCallee m) method.dataIn

/-- The members of a candidate are actions of the plan. -/
theorem members_lt {reach : Reach} (h : Contention.WorkedOut reach contention)
    {candidate : Candidate} (hcandidate : candidate ∈ contention.candidates) :
    ∀ t ∈ candidate.members, t < reach.plan.roster.size := by
  intro t ht
  have hmem : candidate ∈ reach.candidates contention.slate.ties := h.candidates_eq ▸ hcandidate
  obtain ⟨⟨id, action⟩, haction, rfl⟩ :=
    List.mem_map.mp (Reach.candidates_members h.ties_eq candidate hmem t ht)
  exact Roster.lt_of_mem_transactions haction

/-- What is known of every answer is known of the answer at a position. -/
theorem forall₂_getD {α : Type} {P : α → NodeId → Prop} {l : List α} {answers : List NodeId}
    (h : List.Forall₂ P l answers) {i : Nat} {a : α} (ha : l[i]? = some a) :
    P a (answers.getD i 0) := by
  obtain ⟨hi, rfl⟩ := List.getElem?_eq_some_iff.mp ha
  have hi' : i < answers.length := h.length_eq ▸ hi
  rw [List.getD_eq_getElem answers 0 hi']
  exact h.get hi hi'

theorem runnable_ensures (hd : d.Sound) {reach : Reach} (hplan : reach.plan = d.plan)
    (h : Contention.WorkedOut reach contention) (accepted : Accepted) :
    (contention.candidates.mapM (candidateRunnable d.plan accepted)).Ensures fun s runnable =>
      (d.circuit ≤ s.circuit → Memo s d.plan accepted →
        (∀ a < d.plan.roster.size, (accepted.lookup a).isSome = true) →
          ∀ node ∈ runnable, s.IsBit node) ∧
      runnable.length = contention.size ∧
      ∀ c candidate, contention.candidates[c]? = some candidate →
        (s.bit (runnable.getD c 0) = true ↔ ∀ t ∈ candidate.members,
          s.bit (readyOf d.plan t) = true ∧ s.bit (nodeOf accepted t) = true) := by
  refine (Build.mapM_ensures fun candidate hcandidate => candidateRunnable_ensures hd accepted
    (hplan ▸ members_lt h hcandidate)).mono fun s runnable hall => ⟨?_, hall.length_eq.symm, ?_⟩
  · intro hle hmemo hkeys node hnode
    obtain ⟨i, hi⟩ := List.mem_iff_getElem?.mp hnode
    have hlt : i < contention.candidates.length := by
      rw [hall.length_eq]
      exact (List.getElem?_eq_some_iff.mp hi).1
    have hone := (forall₂_getD hall (List.getElem?_eq_getElem hlt)).1 hle hmemo hkeys
    rw [List.getD_eq_getElem?_getD, hi] at hone
    exact hone
  · exact fun c candidate hcandidate => (forall₂_getD hall hcandidate).2

theorem runTransactions_ensures (plan : Plan) (grants : List NodeId) :
    (plan.roster.transactions.forM fun (id, transaction) =>
      runTransaction contention grants id transaction).Ensures fun s _ =>
        ∀ entry ∈ plan.roster.transactions, (s.bit entry.2.run = true ↔
          ∃ c ∈ contention.holdersOf entry.1, s.bit (grants.getD c 0) = true) :=
  Build.forM_ensures fun entry _ => runTransaction_ensures grants entry.1 entry.2

theorem runMethods_ensures (hd : d.Sound) (callRuns : List NodeId) :
    (d.plan.roster.methods.forM fun (id, method) =>
      runMethod d.plan callRuns id method).Ensures fun s _ =>
        ∀ entry ∈ d.plan.roster.methods,
          (s.bit entry.2.run = true ↔ ∃ (id : CallId) (site : CallSite),
            d.plan.calls.sites[id]? = some site ∧ site.callee = entry.1 ∧
              s.bit (callRuns.getD id 0) = true) ∧
          (entry.2.combiner? = none → Fed s callRuns (d.plan.calls.byCallee entry.1)
            entry.2.dataIn.fields (entry.2.dataIn.nodes.map s.word)) ∧
          ∀ combiner, entry.2.combiner? = some combiner → d.plan.calls.byCallee entry.1 ≠ [] →
            Combined s combiner callRuns (d.plan.calls.byCallee entry.1) entry.2.dataIn :=
  Build.forM_ensures fun _ hentry =>
    runMethod_ensures hd callRuns (Roster.mem_methods.mp hentry).1

theorem runCalls_ensures (plan : Plan) :
    (plan.calls.sites.toList.mapM (runCall plan)).Ensures fun s callRuns =>
      ∀ id site, plan.calls.sites[id]? = some site →
        s.bit (callRuns.getD id 0) = (s.bit (runOf plan site.caller) && s.bit site.enable) := by
  refine (Build.mapM_ensures fun site _ => runCall_ensures plan site).mono ?_
  intro s callRuns hall id site hsite
  exact forall₂_getD hall (by rw [Array.getElem?_toList, hsite])

/-- **The wiring of a sound design is as described**, whatever the circuit becomes. -/
theorem connect_ensures (hd : d.Sound) {reach : Reach} (hfollowed : Reach.Followed d.plan reach)
    (h : Contention.WorkedOut reach contention) {policy : Policy}
    (hgrows : ∀ contention runnable, (policy.grants contention runnable).Grows) :
    (connect d.plan contention policy).Ensures fun s wiring =>
      d.circuit ≤ s.circuit → Wired s d.plan contention policy wiring := by
  have hplan := hfollowed.plan_eq
  refine Build.bind_ensures (acceptAll_ensures hd hfollowed) fun accepted => ?_
  refine Build.bind_ensures (runnable_ensures hd hplan h accepted).everywhere fun runnable => ?_
  refine Build.bind_ensures (hgrows contention runnable).ensures_yields fun grants => ?_
  refine Build.bind_ensures (runTransactions_ensures d.plan grants) fun _ => ?_
  refine Build.bind_ensures (runCalls_ensures d.plan) fun callRuns => ?_
  refine Build.bind_ensures (runMethods_ensures hd callRuns) fun _ => ?_
  refine Build.pure_ensures fun s hmethods hcalls htransactions hgrants hrunnable haccept hle => ?_
  obtain ⟨hmemo, hkeys⟩ := haccept hle
  obtain ⟨verdict, hasked, hnodes⟩ := exists_verdicts hfollowed hmemo hkeys
  have hdecides : Decides s d.plan contention runnable verdict := by
    refine ⟨hasked, fun s' horigin hcircuit c candidate hcandidate => ?_⟩
    rw [(hrunnable s' horigin hcircuit).2.2 c candidate hcandidate]
    refine forall_congr' fun t => forall_congr' fun ht => and_congr_right fun _ => ?_
    have hlt := members_lt h (List.mem_of_getElem? hcandidate) t ht
    exact hnodes s' horigin hcircuit t (hplan ▸ hlt)
  obtain ⟨hbits, hlength, -⟩ := hrunnable.here
  exact ⟨hbits hle hmemo hkeys, hlength, ⟨verdict, hdecides⟩, hgrants,
    fun t transaction ht => htransactions _ ht, hcalls, fun m method hm => (hmethods _ hm).1,
    fun m method hm => (hmethods _ hm).2.1, fun m method hm => (hmethods _ hm).2.2⟩

end Interlock.Wiring
