/-
Who runs in one cycle of a finished design.

A design that was finished has the contention of its plan and a circuit that holds the wiring, so
every evaluation settles what the wiring says.  Run bits are handed down: a transaction runs if a
candidate that holds it is granted, a call happens if its caller runs and enables it, and a method
runs if a call of it happens.  Read upwards this traces every action that runs to a transaction
that runs, since chains of calls are no longer than there are actions; read downwards it says that
whatever hangs on a running transaction by enabled calls runs with it.
-/
import Interlock.System.Basic
import Interlock.Proofs.Circuit.Solution
import Interlock.Proofs.System.Wiring

namespace Interlock

namespace System

variable (system : System) (valuation : Valuation)

/-- The action runs in the cycle. -/
def Runs (a : ActionId) : Prop :=
  ∃ action, system.roster.actions[a]? = some action ∧ valuation.bit action.run = true

/-- The action is ready in the cycle. -/
def Ready (a : ActionId) : Prop :=
  ∃ action, system.roster.actions[a]? = some action ∧ valuation.bit action.ready = true

/-- The call site is enabled in the cycle. -/
def Enables (id : CallId) : Prop :=
  ∃ site, system.calls.sites[id]? = some site ∧ valuation.bit site.enable = true

/-- The candidate is granted in the cycle. -/
def Granted (c : Nat) : Prop :=
  ∃ node, system.wiring.grants[c]? = some node ∧ valuation.bit node = true

/-- The call happens in the cycle. -/
def Happens (id : CallId) : Prop :=
  valuation.bit (system.wiring.callRuns.getD id 0) = true

/-- The action is a transaction. -/
def IsTransaction (a : ActionId) : Prop :=
  ∃ action, system.roster.actions[a]? = some action ∧ action.isTransaction = true

/-- The first action is the second, or calls it by way of enabled call sites. -/
def Brings (t a : ActionId) : Prop :=
  t = a ∨ ∃ ids, system.calls.Leads t ids a ∧ ∀ id ∈ ids, system.Enables valuation id

theorem runs_iff_getElem? {a : ActionId} :
    system.Runs valuation a ↔ (system.runs valuation)[a]? = some true := by
  simp [Runs, System.runs, Option.map_eq_some_iff]

theorem isTransaction_iff_mem {a : ActionId} :
    system.IsTransaction a ↔ a ∈ system.roster.transactions.map Prod.fst := by
  simp only [IsTransaction, List.mem_map, Prod.exists, exists_and_right, exists_eq_right,
    Roster.mem_transactions]

/-- Words that are applied to inputs only are evaluated. -/
theorem evaluate_eq_ok {stimulus : Stimulus}
    (h : ∀ entry ∈ stimulus.assigned, system.circuit.isInput entry.1 = true) :
    ∃ valuation, system.evaluate stimulus = .ok valuation :=
  ⟨_, ofCircuit_eq_ok_iff.mpr (Evaluator.evaluate_eq_ok h)⟩

end System

/-! ### Finished designs -/

theorem ground_grows (wire : NodeId) : (Wiring.ground wire).Grows := by
  refine Build.bind_grows Build.get_grows fun c => ?_
  refine Build.bind_grows (Build.ofExcept_grows _) fun driven => ?_
  split
  · exact Build.pure_grows _
  · refine Build.bind_grows (Build.width_grows wire) fun w => ?_
    exact Build.bind_grows (Build.constant_grows 0 w) fun low => Build.drive_grows wire low

theorem groundOutputs_grows (plan : Plan) : (Wiring.groundOutputs plan).Grows :=
  Build.forM_grows (fun _ => Build.forM_grows ground_grows _) _

theorem runOn_eq_ok {α : Type} {request : Build α} {c : Circuit} {answer : α × Circuit}
    (h : request.runOn c = .ok answer) : request.Yields c answer.1 answer.2 := by
  unfold Build.runOn at h
  unfold Build.Yields
  rcases hrun : request.run.run c with ⟨fault | a, c'⟩
  · rw [hrun] at h
    cases h
  · rw [hrun] at h
    cases h
    rfl

theorem runOn_eq_ok_iff {α : Type} {request : Build α} {c c' : Circuit} {a : α} :
    request.runOn c = .ok (a, c') ↔ request.Yields c a c' := by
  refine ⟨runOn_eq_ok, fun h => ?_⟩
  unfold Build.Yields at h
  unfold Build.runOn
  rw [h]

/-- A design is finished by grounding, contention, wiring and an order of evaluation. -/
theorem finish_eq_ok_iff {d : Declarations} {policy : Policy} {system : System} :
    d.finish policy = .ok system ↔ ∃ grounded wired,
      (Wiring.groundOutputs d.plan).Yields d.circuit () grounded ∧
        Contention.ofPlan d.plan = .ok system.contention ∧
        (Wiring.connect d.plan system.contention policy).Yields grounded system.wiring wired ∧
        Evaluator.ofCircuit wired = .ok system.evaluator ∧ system.plan = d.plan ∧
        system.policyName = policy.name := by
  constructor
  · intro h
    obtain ⟨⟨_, grounded⟩, hground, h⟩ := bind_eq_ok_iff.mp h
    obtain ⟨contention, hcontention, h⟩ := bind_eq_ok_iff.mp h
    obtain ⟨⟨wiring, wired⟩, hconnect, h⟩ := bind_eq_ok_iff.mp h
    obtain ⟨evaluator, hevaluator, h⟩ := bind_eq_ok_iff.mp h
    cases h
    exact ⟨grounded, wired, runOn_eq_ok_iff.mp hground, hcontention, runOn_eq_ok_iff.mp hconnect,
      ofCircuit_eq_ok_iff.mp hevaluator, rfl, rfl⟩
  · rintro ⟨grounded, wired, hground, hcontention, hconnect, hevaluator, hplan, hpolicy⟩
    obtain ⟨plan, contention, wiring, evaluator, policyName⟩ := system
    obtain rfl : plan = d.plan := hplan
    obtain rfl : policyName = policy.name := hpolicy
    refine bind_eq_ok_iff.mpr ⟨((), grounded), runOn_eq_ok_iff.mpr hground, ?_⟩
    refine bind_eq_ok_iff.mpr ⟨contention, hcontention, ?_⟩
    refine bind_eq_ok_iff.mpr ⟨(wiring, wired), runOn_eq_ok_iff.mpr hconnect, ?_⟩
    exact bind_eq_ok_iff.mpr ⟨evaluator, ofCircuit_eq_ok_iff.mpr hevaluator, rfl⟩

/-- What a design has in common with the system that it is finished to. -/
structure Finished (d : Declarations) (policy : Policy) (system : System) : Prop where
  plan_eq : system.plan = d.plan
  contention_eq : ∃ reach, Reach.ofPlan d.plan = .ok reach ∧
    Contention.ofReach reach = .ok system.contention
  connected : ∃ grounded, d.circuit ≤ grounded ∧
    (Wiring.connect d.plan system.contention policy).Yields grounded system.wiring system.circuit

theorem finish_finished {d : Declarations} {policy : Policy} {system : System}
    (h : d.finish policy = .ok system) : Finished d policy system := by
  obtain ⟨grounded, wired, hground, hcontention, hconnect, hevaluator, hplan, -⟩ :=
    finish_eq_ok_iff.mp h
  obtain ⟨reach, hreach, hcontention⟩ := bind_eq_ok_iff.mp hcontention
  obtain rfl := Evaluator.circuit_of_ofCircuit hevaluator
  have hgrown := (groundOutputs_grows d.plan).le_of_yields hground
  exact ⟨hplan, ⟨reach, hreach, hcontention⟩, grounded, hgrown, hconnect⟩

/-- Whether the design can be finished with a policy, and a cycle of it passes a check. -/
def Declarations.passesWith (d : Declarations) (policy : Policy) (stimulus : Stimulus)
    (check : System → Valuation → Bool) : Bool :=
  match d.finish policy with
  | .error _ => false
  | .ok system =>
    match system.evaluate stimulus with
    | .error _ => false
    | .ok valuation => check system valuation

theorem exists_of_passesWith {d : Declarations} {policy : Policy} {stimulus : Stimulus}
    {check : System → Valuation → Bool} (h : d.passesWith policy stimulus check = true) :
    ∃ system valuation, d.finish policy = .ok system ∧
      system.evaluate stimulus = .ok valuation ∧ check system valuation = true := by
  unfold Declarations.passesWith at h
  split at h
  · cases h
  · rename_i system hfinish
    split at h
    · cases h
    · rename_i valuation heval
      exact ⟨system, valuation, hfinish, heval, h⟩

/-- Whether the design can be finished with the eager policy, and a cycle of it passes a check. -/
def Declarations.passes (d : Declarations) (stimulus : Stimulus)
    (check : System → Valuation → Bool) : Bool :=
  d.passesWith .eager stimulus check

theorem exists_of_passes {d : Declarations} {stimulus : Stimulus}
    {check : System → Valuation → Bool} (h : d.passes stimulus check = true) :
    ∃ system valuation, d.finish .eager = .ok system ∧
      system.evaluate stimulus = .ok valuation ∧ check system valuation = true :=
  exists_of_passesWith h

theorem exists_runs {d : Declarations} {stimulus : Stimulus} {transactions : List ActionId}
    {runs : List Bool} (h : d.passes stimulus (fun system valuation =>
      system.roster.transactions.map Prod.fst == transactions &&
        system.runs valuation == runs) = true) :
    ∃ system valuation, d.finish .eager = .ok system ∧
      system.evaluate stimulus = .ok valuation ∧
      (∀ t ∈ transactions, system.IsTransaction t) ∧ system.runs valuation = runs := by
  obtain ⟨system, valuation, hfinish, heval, hcheck⟩ := exists_of_passes h
  obtain ⟨htransactions, hruns⟩ := Bool.and_eq_true_iff.mp hcheck
  refine ⟨system, valuation, hfinish, heval, fun t ht => ?_, eq_of_beq hruns⟩
  rw [system.isTransaction_iff_mem, eq_of_beq htransactions]
  exact ht

/-- One evaluation of a design that was finished with a policy. -/
structure Evaluated (d : Declarations) (policy : Policy) (system : System) (valuation : Valuation)
    (reach : Reach) (s : Settled) : Prop where
  sound : d.Sound
  plan_eq : system.plan = d.plan
  followed : Reach.Followed d.plan reach
  workedOut : Contention.WorkedOut reach system.contention
  origin_eq : s.origin = d.circuit
  circuit_eq : s.circuit = system.circuit
  valuation_eq : s.valuation = valuation
  wired : Wiring.Wired s d.plan system.contention policy system.wiring

/-- One cycle of a design that was finished with a policy: it answered one grant for every
candidate. -/
structure Cycle (d : Declarations) (policy : Policy) (system : System) (valuation : Valuation)
    (reach : Reach) (s : Settled) : Prop extends
    Evaluated d policy system valuation reach s where
  served : system.wiring.grants.length = system.contention.size

/-- Whatever was declared is in the circuit of the system. -/
theorem circuit_le_of_finish {d : Declarations} (hd : d.Declared) {policy : Policy}
    (hgrows : ∀ contention runnable, (policy.grants contention runnable).Grows) {system : System}
    (hfinish : d.finish policy = .ok system) : d.circuit ≤ system.circuit := by
  obtain ⟨reach, hreach, hcontention⟩ := (finish_finished hfinish).contention_eq
  obtain ⟨grounded, hgrounded, hyields⟩ := (finish_finished hfinish).connected
  have hconnect := Wiring.connect_ensures hd.sound (Reach.ofPlan_followed hreach)
    (Contention.ofReach_workedOut hcontention) hgrows
  exact Circuit.le_trans hgrounded (hconnect.grows.le_of_yields hyields)

/-- Every evaluation of a finished design settles its wiring, whatever the policy granted. -/
theorem exists_evaluated {d : Declarations} (hd : d.Declared) {policy : Policy}
    (hgrows : ∀ contention runnable, (policy.grants contention runnable).Grows) {system : System}
    (hfinish : d.finish policy = .ok system) {stimulus : Stimulus} {valuation : Valuation}
    (heval : system.evaluate stimulus = .ok valuation) :
    ∃ reach s, Evaluated d policy system valuation reach s := by
  have hfinished := finish_finished hfinish
  obtain ⟨reach, hreach, hcontention⟩ := hfinished.contention_eq
  obtain ⟨grounded, hgrounded, hyields⟩ := hfinished.connected
  have hfollowed := Reach.ofPlan_followed hreach
  have hworked := Contention.ofReach_workedOut hcontention
  have hconnect := Wiring.connect_ensures hd.sound hfollowed hworked hgrows
  have hwired := hconnect.holds hyields
    (Evaluator.settled d.circuit (ofCircuit_eq_ok_iff.mp heval)) hgrounded
    system.circuit.le_refl (circuit_le_of_finish hd hgrows hfinish)
  exact ⟨reach, _, hd.sound, hfinished.plan_eq, hfollowed, hworked, rfl, rfl, rfl, hwired⟩

/-- A policy that serves answers one grant for every candidate. -/
theorem Evaluated.cycle {d : Declarations} {policy : Policy} {system : System}
    {valuation : Valuation} {reach : Reach} {s : Settled}
    (h : Evaluated d policy system valuation reach s) (hpolicy : policy.Serves) :
    Cycle d policy system valuation reach s := by
  obtain ⟨c, c', -, hgrants, -⟩ := h.wired.answered
  exact ⟨h, hpolicy.length_eq hgrants⟩

/-- **Every evaluation of a finished design is a cycle of it.** -/
theorem exists_cycle {d : Declarations} (hd : d.Declared) {policy : Policy}
    (hpolicy : policy.Serves) {system : System} (hfinish : d.finish policy = .ok system)
    {stimulus : Stimulus} {valuation : Valuation}
    (heval : system.evaluate stimulus = .ok valuation) :
    ∃ reach s, Cycle d policy system valuation reach s := by
  obtain ⟨reach, s, h⟩ := exists_evaluated hd hpolicy.grows hfinish heval
  exact ⟨reach, s, h.cycle hpolicy⟩

theorem cycle_of_evaluate {d : Declarations} (hd : d.Declared) {system : System}
    (hfinish : d.finish .eager = .ok system) {stimulus : Stimulus} {valuation : Valuation}
    (heval : system.evaluate stimulus = .ok valuation) :
    ∃ reach s, Cycle d .eager system valuation reach s :=
  exists_cycle hd Policy.eager_serves hfinish heval

namespace Evaluated

variable {d : Declarations} {policy : Policy} {system : System} {valuation : Valuation}
  {reach : Reach} {s : Settled} (h : Evaluated d policy system valuation reach s)
include h

theorem bit_eq (node : NodeId) : valuation.bit node = s.bit node := by
  rw [← h.valuation_eq]
  rfl

theorem ready_iff {a : ActionId} {action : Action} (ha : d.plan.roster.actions[a]? = some action) :
    system.Ready valuation a ↔ s.bit action.ready = true := by
  unfold System.Ready System.roster
  rw [h.plan_eq, ha]
  simp [h.bit_eq]

theorem enables_iff {id : CallId} {site : CallSite} (hsite : d.plan.calls.sites[id]? = some site) :
    system.Enables valuation id ↔ s.bit site.enable = true := by
  unfold System.Enables System.calls
  rw [h.plan_eq, hsite]
  simp [h.bit_eq]

/-- The sites of a chain are enabled if each of them has an enable that is high. -/
theorem enabled_of_enables {ids : List CallId}
    (henables : ∀ id ∈ ids, system.Enables valuation id) :
    ∀ id ∈ ids, ∀ site, d.plan.calls.sites[id]? = some site → s.bit site.enable = true :=
  fun id hid _ hsite => (h.enables_iff hsite).mp (henables id hid)

end Evaluated

namespace Cycle

variable {d : Declarations} {policy : Policy} {system : System} {valuation : Valuation}
  {reach : Reach} {s : Settled} (h : Cycle d policy system valuation reach s)
include h

theorem happens_iff_bit {id : CallId} :
    system.Happens valuation id ↔ s.bit (system.wiring.callRuns.getD id 0) = true := by
  unfold System.Happens
  rw [h.bit_eq]

theorem brings_iff {t a : ActionId} : system.Brings valuation t a ↔
    t = a ∨ ∃ ids, d.plan.calls.Leads t ids a ∧ ∀ id ∈ ids, system.Enables valuation id := by
  unfold System.Brings System.calls
  rw [h.plan_eq]

/-! ### One step of handing down -/

theorem runs_iff {a : ActionId} {action : Action} (ha : d.plan.roster.actions[a]? = some action) :
    system.Runs valuation a ↔ s.bit action.run = true := by
  unfold System.Runs System.roster
  rw [h.plan_eq, ha]
  simp [h.bit_eq]

theorem isTransaction_iff {a : ActionId} : system.IsTransaction a ↔
    ∃ action, (a, action) ∈ d.plan.roster.transactions := by
  unfold System.IsTransaction System.roster
  rw [h.plan_eq]
  simp only [Roster.mem_transactions]

theorem isTransaction_of_mem {a : ActionId}
    (ha : a ∈ d.plan.roster.transactions.map Prod.fst) : system.IsTransaction a := by
  obtain ⟨⟨_, action⟩, haction, rfl⟩ := List.mem_map.mp ha
  exact h.isTransaction_iff.mpr ⟨action, haction⟩

/-- A call happens if its caller runs and enables it. -/
theorem happens_iff {id : CallId} {site : CallSite} (hsite : d.plan.calls.sites[id]? = some site) :
    system.Happens valuation id ↔
      system.Runs valuation site.caller ∧ system.Enables valuation id := by
  obtain ⟨caller, hcaller⟩ : ∃ caller, d.plan.roster.actions[site.caller]? = some caller :=
    ⟨_, Array.getElem?_eq_getElem (h.followed.between id site hsite).1⟩
  rw [h.happens_iff_bit, h.wired.call id site hsite, Wiring.runOf_eq hcaller, h.runs_iff hcaller,
    h.enables_iff hsite, Bool.and_eq_true]

theorem granted_iff {c : Nat} (hc : c < system.contention.size) :
    system.Granted valuation c ↔ s.bit (system.wiring.grants.getD c 0) = true := by
  have hlt : c < system.wiring.grants.length := h.served ▸ hc
  unfold System.Granted
  rw [List.getD_eq_getElem _ 0 hlt, List.getElem?_eq_getElem hlt]
  simp [h.bit_eq]

theorem lt_of_granted {c : Nat} (hc : system.Granted valuation c) :
    c < system.contention.size := by
  obtain ⟨node, hnode, -⟩ := hc
  rw [← h.served]
  exact (List.getElem?_eq_some_iff.mp hnode).1

/-- A transaction runs if a candidate that holds it is granted. -/
theorem runs_transaction_iff {t : ActionId} (ht : system.IsTransaction t) :
    system.Runs valuation t ↔ ∃ c ∈ system.contention.holdersOf t,
      s.bit (system.wiring.grants.getD c 0) = true := by
  obtain ⟨transaction, ht⟩ := h.isTransaction_iff.mp ht
  rw [h.runs_iff (Roster.mem_transactions.mp ht).1, h.wired.transaction t transaction ht]

theorem runs_iff_granted {t : ActionId} (ht : system.IsTransaction t) :
    system.Runs valuation t ↔ ∃ c ∈ system.contention.holdersOf t, system.Granted valuation c := by
  rw [h.runs_transaction_iff ht]
  refine exists_congr fun c => and_congr_right fun hc => ?_
  rw [h.granted_iff (Slate.lt_of_mem_holdersOf hc)]

/-- A method runs if a call of it happens. -/
theorem runs_method_iff {m : ActionId} {method : Action}
    (hm : (m, method) ∈ d.plan.roster.methods) :
    system.Runs valuation m ↔ ∃ id site, d.plan.calls.sites[id]? = some site ∧
      site.callee = m ∧ system.Happens valuation id := by
  rw [h.runs_iff (Roster.mem_methods.mp hm).1, h.wired.method m method hm]
  simp only [h.happens_iff_bit]

theorem runs_callee {id : CallId} {site : CallSite} (hsite : d.plan.calls.sites[id]? = some site)
    (hhappens : system.Happens valuation id) : system.Runs valuation site.callee := by
  obtain ⟨method, hmethod, hrole⟩ := (h.sound.sites id site hsite).callee
  exact (h.runs_method_iff (Roster.mem_methods.mpr ⟨hmethod, hrole⟩)).mpr
    ⟨id, site, hsite, rfl, hhappens⟩

/-! ### Downwards -/

/-- What a running action calls by way of enabled call sites runs with it. -/
theorem happens_of_leads {a m : ActionId} {ids : List CallId}
    (hleads : d.plan.calls.Leads a ids m) :
    system.Runs valuation a → (∀ id ∈ ids, system.Enables valuation id) →
      (∀ id ∈ ids, system.Happens valuation id) ∧ system.Runs valuation m := by
  induction hleads with
  | @last id site hsite =>
      intro hruns henables
      have hhappens := (h.happens_iff hsite).mpr ⟨hruns, henables id (by simp)⟩
      exact ⟨by simpa using hhappens, h.runs_callee hsite hhappens⟩
  | @step id site ids m hsite _ ih =>
      intro hruns henables
      have hhappens := (h.happens_iff hsite).mpr ⟨hruns, henables id (by simp)⟩
      obtain ⟨hbelow, hlast⟩ := ih (h.runs_callee hsite hhappens)
        fun other hother => henables other (List.mem_cons_of_mem _ hother)
      refine ⟨fun other hother => ?_, hlast⟩
      rcases List.mem_cons.mp hother with rfl | hother
      · exact hhappens
      · exact hbelow other hother

theorem runs_of_brings {t a : ActionId} (ht : system.Runs valuation t)
    (hbrings : system.Brings valuation t a) : system.Runs valuation a := by
  rcases h.brings_iff.mp hbrings with rfl | ⟨ids, hleads, henables⟩
  · exact ht
  · exact (h.happens_of_leads hleads ht henables).2

/-! ### Upwards -/

/-- A running action is a transaction or is called by a running action. -/
theorem isTransaction_or_called {a : ActionId} (ha : system.Runs valuation a) :
    system.IsTransaction a ∨ ∃ id site, d.plan.calls.sites[id]? = some site ∧ site.callee = a ∧
      system.Happens valuation id := by
  obtain ⟨action, haction, -⟩ := id ha
  unfold System.roster at haction
  rw [h.plan_eq] at haction
  cases hrole : action.interface? with
  | none =>
      have ht : action.isTransaction = true := by simp [Action.isTransaction, hrole]
      exact .inl (h.isTransaction_iff.mpr ⟨action, Roster.mem_transactions.mpr ⟨haction, ht⟩⟩)
  | some interface =>
      have hm : action.isMethod = true := by simp [Action.isMethod, hrole]
      exact .inr ((h.runs_method_iff (Roster.mem_methods.mpr ⟨haction, hm⟩)).mp ha)

/-- A call that happens is made by a running action that enables it. -/
theorem runs_caller {id : CallId} {site : CallSite} (hsite : d.plan.calls.sites[id]? = some site)
    (hhappens : system.Happens valuation id) :
    system.Runs valuation site.caller ∧ system.Enables valuation id :=
  (h.happens_iff hsite).mp hhappens

/-- **Whatever runs is brought by a transaction that runs.** -/
theorem exists_brings {a : ActionId} (ha : system.Runs valuation a) :
    ∃ t, system.IsTransaction t ∧ system.Runs valuation t ∧ system.Brings valuation t a := by
  by_contra hnone
  -- Without one, ever longer chains of happening calls would lead to the action.
  have hchain : ∀ k, ∃ b ids, system.Runs valuation b ∧ d.plan.calls.Leads b ids a ∧
      (∀ id ∈ ids, system.Enables valuation id) ∧ ids.length = k + 1 := by
    intro k
    induction k with
    | zero =>
        rcases h.isTransaction_or_called ha with ht | ⟨id, site, hsite, rfl, hhappens⟩
        · exact absurd ⟨a, ht, ha, .inl rfl⟩ hnone
        · obtain ⟨hcaller, henables⟩ := h.runs_caller hsite hhappens
          exact ⟨site.caller, [id], hcaller, .last hsite, by simpa using henables, rfl⟩
    | succ k ih =>
        obtain ⟨b, ids, hb, hleads, henables, hlength⟩ := ih
        rcases h.isTransaction_or_called hb with ht | ⟨id, site, hsite, rfl, hhappens⟩
        · exact absurd ⟨b, ht, hb, h.brings_iff.mpr (.inr ⟨ids, hleads, henables⟩)⟩ hnone
        · obtain ⟨hcaller, henable⟩ := h.runs_caller hsite hhappens
          refine ⟨site.caller, id :: ids, hcaller, .step hsite hleads, ?_, by simp [hlength]⟩
          intro other hother
          rcases List.mem_cons.mp hother with rfl | hother
          · exact henable
          · exact henables other hother
  obtain ⟨b, ids, -, hleads, -, hlength⟩ := hchain d.plan.roster.size
  have hbound := h.followed.bounded hleads
  omega

/-- A call that happens is the last of a chain from a transaction that runs. -/
theorem exists_leads {id : CallId} {site : CallSite}
    (hsite : d.plan.calls.sites[id]? = some site) (hhappens : system.Happens valuation id) :
    ∃ t ids, system.IsTransaction t ∧ system.Runs valuation t ∧
      d.plan.calls.Leads t (ids ++ [id]) site.callee := by
  obtain ⟨t, ht, hruns, hbrings⟩ := h.exists_brings (h.runs_caller hsite hhappens).1
  rcases h.brings_iff.mp hbrings with rfl | ⟨ids, hleads, -⟩
  · exact ⟨site.caller, [], ht, hruns, .last hsite⟩
  · exact ⟨t, ids, ht, hruns, hleads.append (.last hsite)⟩

theorem carries_of_brings {t a : ActionId} (hbrings : system.Brings valuation t a) :
    reach.Carries t a := by
  rcases h.brings_iff.mp hbrings with rfl | ⟨ids, hleads, -⟩
  · exact .inl rfl
  · exact .inr ⟨⟨a, ids⟩, h.followed.mem_pathsOf.mpr hleads, rfl⟩

/-- A transaction that brings an action stands for it. -/
theorem mem_standsFor_of_brings {t a : ActionId} (ht : system.IsTransaction t)
    (hbrings : system.Brings valuation t a) : t ∈ reach.standsFor a := by
  obtain ⟨action, haction⟩ := h.isTransaction_iff.mp ht
  rw [← h.followed.plan_eq] at haction
  exact Reach.mem_standsFor.mpr
    ⟨List.mem_map.mpr ⟨_, haction, rfl⟩, h.carries_of_brings hbrings⟩

/-! ### Candidates that run -/

/-- A running action takes part in a candidate that is granted. -/
theorem exists_granted {a : ActionId} (ha : system.Runs valuation a) :
    ∃ t c, c ∈ system.contention.holdersOf t ∧ c ∈ system.contention.usersOf a ∧
      s.bit (system.wiring.grants.getD c 0) = true := by
  obtain ⟨t, ht, hruns, hbrings⟩ := h.exists_brings ha
  obtain ⟨c, hc, hgrant⟩ := (h.runs_transaction_iff ht).mp hruns
  exact ⟨t, c, hc, h.workedOut.mem_usersOf.mpr ⟨t, hc, h.carries_of_brings hbrings⟩, hgrant⟩

end Cycle

namespace Cycle

variable {d : Declarations} {system : System} {valuation : Valuation} {reach : Reach} {s : Settled}
  (h : Cycle d .eager system valuation reach s)
include h

theorem arbitrates : system.contention.Arbitrates
    (fun c => s.bit (system.wiring.runnable.getD c 0) = true)
    (fun c => s.bit (system.wiring.grants.getD c 0) = true) := by
  obtain ⟨c, c', hfrom, hyields, hle⟩ := h.wired.answered
  exact (Policy.eagerGrants_ensures h.workedOut _).holds hyields s hfrom hle h.wired.isBit

/-- Candidates that are granted in one cycle do not conflict. -/
theorem not_inConflict {c c' : Nat} {t t' : ActionId} (ht : c ∈ system.contention.holdersOf t)
    (ht' : c' ∈ system.contention.holdersOf t')
    (hc : s.bit (system.wiring.grants.getD c 0) = true)
    (hc' : s.bit (system.wiring.grants.getD c' 0) = true) :
    system.contention.inConflict c c' = false := by
  have hlt := Slate.lt_of_mem_holdersOf ht
  have hlt' := Slate.lt_of_mem_holdersOf ht'
  exact h.arbitrates.free c hlt c' hlt' hc hc'

end Cycle

end Interlock
