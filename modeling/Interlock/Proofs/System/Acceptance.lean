/-
Nothing runs that is not accepted.

A candidate is granted only if all that its transactions call and enable is accepted.  Whatever
runs hangs on a transaction that runs by enabled calls, so that every call that happens is among
those that were accepted: what is called is ready and likes the arguments.
-/
import Interlock.Proofs.System.Running

namespace Interlock

/-! ### Verdicts that serve every cycle -/

/-- For every call site of a method with a validator, this is a node of the system that the
validator answered when it was asked about the arguments, after the declarations. -/
def System.Asked (system : System) (verdict : CallId → NodeId) (d : Declarations) : Prop :=
  ∀ (id : CallId) (site : CallSite), d.plan.calls.sites[id]? = some site →
    ∀ (method : Action), d.plan.roster.actions[site.callee]? = some method →
      ∀ validator, method.validator? = some validator →
        ∃ c c', d.circuit ≤ c ∧ (validator site.arguments).Yields c (verdict id) c' ∧
          c' ≤ system.circuit

/-- The verdict on the arguments is high, if the method that is called has a validator. -/
def System.Likes (system : System) (valuation : Valuation) (site : CallSite) (verdict : NodeId) :
    Prop :=
  ∀ method, system.roster.actions[site.callee]? = some method →
    method.validator?.isSome = true → valuation.bit verdict = true

theorem Wiring.Decides.of_eq {s s' : Settled} {plan : Plan} {contention : Contention}
    {runnable : List NodeId} {verdict : CallId → NodeId}
    (h : Wiring.Decides s plan contention runnable verdict) (horigin : s'.origin = s.origin)
    (hcircuit : s'.circuit = s.circuit) : Wiring.Decides s' plan contention runnable verdict where
  asked := by
    rw [horigin, hcircuit]
    exact h.asked
  high_iff := fun other horigin' hcircuit' =>
    h.high_iff other (horigin'.trans horigin) (hcircuit'.trans hcircuit)

/-- The verdicts are known when the design is finished, before any words are applied. -/
theorem exists_evaluated_decides {d : Declarations} (hd : d.Declared) {policy : Policy}
    (hgrows : ∀ contention runnable, (policy.grants contention runnable).Grows) {system : System}
    (hfinish : d.finish policy = .ok system) :
    ∃ verdict, system.Asked verdict d ∧ ∀ stimulus valuation,
      system.evaluate stimulus = .ok valuation → ∃ reach s,
        Evaluated d policy system valuation reach s ∧
          Wiring.Decides s d.plan system.contention system.wiring.runnable verdict := by
  obtain ⟨initial, hinitial⟩ := @System.evaluate_eq_ok system .empty nofun
  obtain ⟨_, s₀, h₀⟩ := exists_evaluated hd hgrows hfinish hinitial
  obtain ⟨verdict, hverdict⟩ := h₀.wired.decided
  refine ⟨verdict, ?_, fun stimulus valuation heval => ?_⟩
  · have hasked := hverdict.asked
    rw [h₀.origin_eq, h₀.circuit_eq] at hasked
    exact hasked
  · obtain ⟨reach, s, h⟩ := exists_evaluated hd hgrows hfinish heval
    exact ⟨reach, s, h, hverdict.of_eq (h.origin_eq.trans h₀.origin_eq.symm)
      (h.circuit_eq.trans h₀.circuit_eq.symm)⟩

theorem exists_decides {d : Declarations} (hd : d.Declared) {policy : Policy}
    (hpolicy : policy.Serves) {system : System} (hfinish : d.finish policy = .ok system) :
    ∃ verdict, system.Asked verdict d ∧ ∀ stimulus valuation,
      system.evaluate stimulus = .ok valuation → ∃ reach s,
        Cycle d policy system valuation reach s ∧
          Wiring.Decides s d.plan system.contention system.wiring.runnable verdict := by
  obtain ⟨verdict, hasked, hdecides⟩ := exists_evaluated_decides hd hpolicy.grows hfinish
  refine ⟨verdict, hasked, fun stimulus valuation heval => ?_⟩
  obtain ⟨reach, s, h, hverdict⟩ := hdecides stimulus valuation heval
  exact ⟨reach, s, h.cycle hpolicy, hverdict⟩

/-! ### What is accepted in a cycle -/

namespace Cycle

variable {d : Declarations} {system : System} {valuation : Valuation} {reach : Reach} {s : Settled}
  (h : Cycle d .eager system valuation reach s)
include h

/-- A transaction that runs is ready, and its calls are accepted. -/
theorem transaction_accepts {verdict : CallId → NodeId}
    (hverdict : Wiring.Decides s d.plan system.contention system.wiring.runnable verdict)
    {t : ActionId} (ht : system.IsTransaction t) (hruns : system.Runs valuation t) :
    system.Ready valuation t ∧ Wiring.Accepts s d.plan verdict t := by
  obtain ⟨transaction, htransaction⟩ := h.isTransaction_iff.mp ht
  obtain ⟨haction, -⟩ := Roster.mem_transactions.mp htransaction
  obtain ⟨c, hc, hgrant⟩ := (h.runs_transaction_iff ht).mp hruns
  have hrunnable := h.arbitrates.sound c (Slate.lt_of_mem_holdersOf hc) hgrant
  obtain ⟨candidate, hcandidate, hmember⟩ := Slate.mem_holdersOf.mp hc
  obtain ⟨hready, haccepts⟩ :=
    (hverdict.high_iff s rfl rfl c candidate hcandidate).mp hrunnable t hmember
  rw [Wiring.readyOf_eq haction] at hready
  exact ⟨(h.ready_iff haction).mpr hready, haccepts⟩

/-- A call that happens is taken. -/
theorem takes_of_happens {verdict : CallId → NodeId}
    (hverdict : Wiring.Decides s d.plan system.contention system.wiring.runnable verdict)
    {id : CallId} {site : CallSite} (hsite : d.plan.calls.sites[id]? = some site)
    (hhappens : system.Happens valuation id) : Wiring.Takes s d.plan site (verdict id) := by
  obtain ⟨hcaller, henable⟩ := h.runs_caller hsite hhappens
  obtain ⟨t, ht, hruns, hbrings⟩ := h.exists_brings hcaller
  obtain ⟨-, haccepts⟩ := h.transaction_accepts hverdict ht hruns
  rcases h.brings_iff.mp hbrings with rfl | ⟨ids, hleads, henables⟩
  · exact haccepts [id] _ (.last hsite) (h.enabled_of_enables (by simpa using henable)) id site rfl
      hsite
  · refine haccepts (ids ++ [id]) _ (hleads.append (.last hsite)) (h.enabled_of_enables ?_) id site
      List.getLast?_concat hsite
    exact List.forall_mem_append.mpr ⟨henables, List.forall_mem_singleton.mpr henable⟩

/-- The method of a call that happens is ready and likes the arguments. -/
theorem likes_of_happens {verdict : CallId → NodeId}
    (hverdict : Wiring.Decides s d.plan system.contention system.wiring.runnable verdict)
    {id : CallId} {site : CallSite} (hsite : d.plan.calls.sites[id]? = some site)
    (hhappens : system.Happens valuation id) :
    system.Ready valuation site.callee ∧ system.Likes valuation site (verdict id) := by
  obtain ⟨method, hmethod, hready, hhigh⟩ := h.takes_of_happens hverdict hsite hhappens
  refine ⟨(h.ready_iff hmethod).mpr hready, fun other hother hvalidator => ?_⟩
  rw [System.roster, h.plan_eq, hmethod] at hother
  cases hother
  exact (h.bit_eq _).trans (hhigh hvalidator)

/-- Whatever runs is ready. -/
theorem ready_of_runs {verdict : CallId → NodeId}
    (hverdict : Wiring.Decides s d.plan system.contention system.wiring.runnable verdict)
    {a : ActionId} (ha : system.Runs valuation a) : system.Ready valuation a := by
  rcases h.isTransaction_or_called ha with ht | ⟨id, site, hsite, rfl, hhappens⟩
  · exact (h.transaction_accepts hverdict ht ha).1
  · exact (h.likes_of_happens hverdict hsite hhappens).1

end Cycle

/-- What is accepted in a cycle of a finished design, given the verdicts on its calls. -/
structure System.Accepted (d : Declarations) (system : System) (verdict : CallId → NodeId)
    (valuation : Valuation) : Prop where
  /-- Whatever runs is ready. -/
  ready : ∀ a, system.Runs valuation a → system.Ready valuation a
  /-- The method of a call that happens is ready and likes the arguments. -/
  calls : ∀ id site, d.plan.calls.sites[id]? = some site → system.Happens valuation id →
    system.Ready valuation site.callee ∧ system.Likes valuation site (verdict id)
  /-- All calls that are reached from a running transaction by enabled calls happen with it. -/
  together : ∀ t, system.IsTransaction t → system.Runs valuation t →
    ∀ ids m, d.plan.calls.Leads t ids m → (∀ id ∈ ids, system.Enables valuation id) →
      ∀ id ∈ ids, system.Happens valuation id

/-- **Nothing runs unaccepted.**  However a design was declared, the validators of the system it is
finished to were asked for verdicts once, and whatever words are applied to its inputs: what runs is
ready, what is called is ready and likes the arguments, and the enabled calls of a transaction
happen together or it does not run. -/
theorem nothing_runs_unaccepted {d : Declarations} (hd : d.Declared) {system : System}
    (hfinish : d.finish .eager = .ok system) :
    ∃ verdict, system.Asked verdict d ∧ ∀ stimulus valuation,
      system.evaluate stimulus = .ok valuation →
        System.Accepted d system verdict valuation := by
  obtain ⟨verdict, hasked, hdecides⟩ := exists_decides hd Policy.eager_serves hfinish
  refine ⟨verdict, hasked, fun stimulus valuation heval => ?_⟩
  obtain ⟨reach, s, h, hverdict⟩ := hdecides stimulus valuation heval
  exact
    { ready := fun _ ha => h.ready_of_runs hverdict ha
      calls := fun _ _ hsite hhappens => h.likes_of_happens hverdict hsite hhappens
      together := fun _ _ hruns _ _ hleads henables =>
        (h.happens_of_leads hleads hruns henables).1 }

/-- A store that takes nothing but ones, below a relay that calls it where an input asks to. -/
def pickyStore : Declare Unit := do
  let go ← Declare.logic Build.high
  let asks ← Declare.logic (Build.input "asks" 1)
  let worker ← Declare.transaction "worker" none go
  let relay ← Declare.method { name := "relay" }
  let store ← Declare.method
    { name := "store"
      input := ⟨[⟨"item", 1⟩], ⟨by decide, by decide⟩⟩
      validator := some fun arguments => return arguments.nodeAt 0 }
  let _ ← Declare.call worker relay.action go .empty
  let _ ← Declare.call relay.action store.action asks ⟨[(⟨"item", 1⟩, asks)]⟩

theorem pickyStore_declares : pickyStore.Declares := by
  have hvalidator : ∀ validator : Validator,
      some (fun arguments : Bundle => (return arguments.nodeAt 0 : Build NodeId)) = some validator →
        ∀ arguments, (validator arguments).Grows := by
    intro validator hvalidator arguments
    cases hvalidator
    exact Build.pure_grows _
  refine Declare.bind_declares (Declare.logic_declares Build.high_grows) fun go => ?_
  refine Declare.bind_declares (Declare.logic_declares (Build.input_grows _ _)) fun asks => ?_
  refine Declare.bind_declares (Declare.transaction_declares _ _ _) fun worker => ?_
  refine Declare.bind_declares (Declare.method_declares nofun nofun) fun relay => ?_
  refine Declare.bind_declares (Declare.method_declares hvalidator nofun) fun store => ?_
  refine Declare.bind_declares (Declare.call_declares _ _ _ _) fun _ => ?_
  refine Declare.bind_declares (Declare.call_declares _ _ _ _) fun _ => ?_
  exact Declare.pure_declares ()

theorem pickyStore_accepted : ∃ system verdict valuation,
    (pickyStore.run.run .empty).2.finish .eager = .ok system ∧
      system.Asked verdict (pickyStore.run.run .empty).2 ∧
      system.evaluate (Stimulus.empty.set 1 1) = .ok valuation ∧
      system.runs valuation = [true, true, true] ∧
      System.Accepted (pickyStore.run.run .empty).2 system verdict valuation := by
  have hpasses : (pickyStore.run.run .empty).2.passes (Stimulus.empty.set 1 1)
      (fun system valuation => system.runs valuation == [true, true, true]) = true := by
    decide +kernel
  obtain ⟨system, valuation, hfinish, heval, hruns⟩ := exists_of_passes hpasses
  obtain ⟨verdict, hasked, haccepted⟩ :=
    nothing_runs_unaccepted pickyStore_declares.declared hfinish
  exact ⟨system, verdict, valuation, hfinish, hasked, heval, eq_of_beq hruns,
    haccepted _ valuation heval⟩

end Interlock
