/-
What a clean audit says of the candidates that are granted, and what it does not.

A policy may grant what could not run.  An audit looks at the bits of actions: if it is clean, all
members of a granted candidate run, and what runs is ready, so that every method that is called is
ready for it.  What it does not look at are the validators.  A granted candidate can therefore
be one that could not run, and there is one reason only: a call that happens below it is one
whose arguments the method refuses.
-/
import Interlock.Proofs.System.Acceptance
import Interlock.Proofs.System.Audit

namespace Interlock

/-! ### Calls below a candidate -/

namespace System

variable (system : System) (valuation : Valuation) (verdict : CallId → NodeId)

/-- The call happens, and so do all calls on a chain to it from a member of the candidate. -/
def HappensBelow (c : Nat) (id : CallId) : Prop :=
  ∃ candidate t ids m, system.contention.candidates[c]? = some candidate ∧
    t ∈ candidate.members ∧ system.calls.Leads t ids m ∧
      (∀ i ∈ ids, system.Happens valuation i) ∧ ids.getLast? = some id

/-- The method that is called has a validator, and its verdict is low. -/
def Refuses (id : CallId) : Prop :=
  ∃ site method, system.calls.sites[id]? = some site ∧
    system.roster.actions[site.callee]? = some method ∧ method.validator?.isSome = true ∧
      valuation.bit (verdict id) = false

/-- What is certain of a cycle in which no promise is broken. -/
structure Vetted : Prop where
  /-- The method of a call that happens is ready. -/
  ready : ∀ id site, system.calls.sites[id]? = some site → system.Happens valuation id →
    system.Ready valuation site.callee
  /-- A candidate that is granted could run, unless the arguments of a call below it are refused. -/
  runnable_iff : ∀ c, system.Granted valuation c → (system.Runnable valuation c ↔
    ∀ id, system.HappensBelow valuation c id → ¬ system.Refuses valuation verdict id)

end System

namespace Evaluated

variable {d : Declarations} {policy : Policy} {system : System} {valuation : Valuation}
  {reach : Reach} {s : Settled} {verdict : CallId → NodeId}
  (h : Evaluated d policy system valuation reach s)
include h

theorem calls_eq : system.calls = d.plan.calls := by
  unfold System.calls
  rw [h.plan_eq]

theorem roster_eq : system.roster = d.plan.roster := by
  unfold System.roster
  rw [h.plan_eq]

/-- A candidate could run if its members are ready and their calls are accepted. -/
theorem runnable_iff_accepts
    (hverdict : Wiring.Decides s d.plan system.contention system.wiring.runnable verdict) {c : Nat}
    {candidate : Candidate} (hcandidate : system.contention.candidates[c]? = some candidate) :
    system.Runnable valuation c ↔ ∀ t ∈ candidate.members,
      system.Ready valuation t ∧ Wiring.Accepts s d.plan verdict t := by
  have hlt : c < system.wiring.runnable.length := by
    rw [h.wired.length_eq]
    exact (List.getElem?_eq_some_iff.mp hcandidate).1
  have hbit : system.Runnable valuation c ↔
      s.bit (system.wiring.runnable.getD c 0) = true := by
    unfold System.Runnable
    rw [List.getD_eq_getElem _ 0 hlt, List.getElem?_eq_getElem hlt]
    simp [h.bit_eq]
  rw [hbit, hverdict.high_iff s rfl rfl c candidate hcandidate]
  refine forall_congr' fun t => forall_congr' fun ht => and_congr_left fun _ => ?_
  have haction := Wiring.members_lt h.workedOut (List.mem_of_getElem? hcandidate) t ht
  rw [h.followed.plan_eq] at haction
  obtain ⟨action, haction⟩ : ∃ action, d.plan.roster.actions[t]? = some action :=
    ⟨_, Array.getElem?_eq_getElem haction⟩
  rw [Wiring.readyOf_eq haction, h.ready_iff haction]

end Evaluated

namespace Cycle

variable {d : Declarations} {policy : Policy} {system : System} {valuation : Valuation}
  {reach : Reach} {s : Settled} {verdict : CallId → NodeId}
  (h : Cycle d policy system valuation reach s)
include h

/-- A call of a ready method is taken unless it is refused. -/
theorem takes_iff_not_refuses {id : CallId} {site : CallSite}
    (hsite : d.plan.calls.sites[id]? = some site) (hready : system.Ready valuation site.callee) :
    Wiring.Takes s d.plan site (verdict id) ↔ ¬ system.Refuses valuation verdict id := by
  obtain ⟨method, hmethod, -⟩ := (h.sound.sites id site hsite).callee
  have hhigh : s.bit method.ready = true := (h.ready_iff hmethod).mp hready
  unfold Wiring.Takes System.Refuses
  simp [h.calls_eq, h.roster_eq, hsite, hmethod, hhigh, h.bit_eq]

/-- The calls of a running action are accepted if the last of every chain of happening calls is
taken. -/
theorem accepts_iff_of_runs {t : ActionId} (ht : system.Runs valuation t) :
    Wiring.Accepts s d.plan verdict t ↔ ∀ ids m, d.plan.calls.Leads t ids m →
      (∀ i ∈ ids, system.Happens valuation i) → ∀ id site, ids.getLast? = some id →
        d.plan.calls.sites[id]? = some site → Wiring.Takes s d.plan site (verdict id) := by
  unfold Wiring.Accepts
  refine forall_congr' fun ids => forall_congr' fun m => forall_congr' fun hleads => ?_
  refine imp_congr_left ⟨fun henables => ?_, fun hhappens i hi site hsite => ?_⟩
  · refine (h.happens_of_leads hleads ht fun i hi => ?_).1
    obtain ⟨site, hsite⟩ := hleads.exists_site i hi
    exact (h.enables_iff hsite).mpr (henables i hi site hsite)
  · exact (h.enables_iff hsite).mp (h.runs_caller hsite (hhappens i hi)).2

/-- A candidate whose members run and whose calls are ready could run unless a call is refused. -/
theorem vetted
    (hverdict : Wiring.Decides s d.plan system.contention system.wiring.runnable verdict)
    (hready : ∀ a, system.Runs valuation a → system.Ready valuation a)
    (hwhole : ∀ c candidate, system.contention.candidates[c]? = some candidate →
      system.Granted valuation c → ∀ t ∈ candidate.members, system.Runs valuation t) :
    system.Vetted valuation verdict := by
  have hcallee : ∀ id site, d.plan.calls.sites[id]? = some site → system.Happens valuation id →
      system.Ready valuation site.callee :=
    fun id site hsite hhappens => hready _ (h.runs_callee hsite hhappens)
  refine ⟨by rw [h.calls_eq]; exact hcallee, fun c hgranted => ?_⟩
  obtain ⟨candidate, hcandidate⟩ : ∃ candidate,
      system.contention.candidates[c]? = some candidate :=
    ⟨_, List.getElem?_eq_getElem (h.lt_of_granted hgranted)⟩
  have hruns := hwhole c candidate hcandidate hgranted
  rw [h.runnable_iff_accepts hverdict hcandidate]
  constructor
  · rintro haccepts id ⟨other, t, ids, m, hother, ht, hleads, hhappens, hlast⟩
    rw [hcandidate] at hother
    cases hother
    rw [h.calls_eq] at hleads
    have hid := List.mem_of_getLast? hlast
    obtain ⟨site, hsite⟩ := hleads.exists_site id hid
    refine (h.takes_iff_not_refuses hsite (hcallee id site hsite (hhappens id hid))).mp ?_
    exact (h.accepts_iff_of_runs (hruns t ht)).mp (haccepts t ht).2 ids m hleads hhappens id site
      hlast hsite
  · intro hnone t ht
    refine ⟨hready t (hruns t ht), (h.accepts_iff_of_runs (hruns t ht)).mpr ?_⟩
    intro ids m hleads hhappens id site hlast hsite
    have hid := List.mem_of_getLast? hlast
    refine (h.takes_iff_not_refuses hsite (hcallee id site hsite (hhappens id hid))).mpr ?_
    refine hnone id ⟨candidate, t, ids, m, hcandidate, ht, ?_, hhappens, hlast⟩
    rw [h.calls_eq]
    exact hleads

end Cycle

/-! ### Clean audits -/

namespace Audit

variable {audit : Audit}

theorem system_of_ofInputs {system : System} {inputs : List NodeId} {base : Stimulus}
    (h : ofInputs system inputs base = .ok audit) : audit.system = system := by
  unfold ofInputs at h
  split at h
  · cases h
  · cases h
    rfl

theorem assignments_pos : 0 < audit.assignments := Nat.two_pow_pos _

/-- An audit is clean if nothing is listed under any assignment. -/
theorem exists_clean (h : ∀ assignment < audit.assignments, ∃ valuation,
      audit.system.evaluate (audit.stimulus assignment) = .ok valuation ∧
        (Watch.ofSystem audit.system).breaches valuation = []) :
    ∃ report, audit.run = .ok report ∧ report.isClean = true := by
  obtain ⟨report, hrun⟩ := run_isOk_iff.mpr fun assignment hlt =>
    (h assignment hlt).imp fun _ hfound => hfound.1
  refine ⟨report, hrun, (isClean_iff hrun).mpr ?_⟩
  intro assignment hlt valuation heval kind hbreaks
  obtain ⟨valuation', heval', hnone⟩ := h assignment hlt
  rw [heval] at heval'
  cases heval'
  have hfound := Watch.mem_breaches_iff.mpr hbreaks
  rw [hnone] at hfound
  cases hfound

end Audit

/-- **A clean audit vouches for everything but arguments.**  However a design was declared and
whatever policy it was finished with, its validators were asked for verdicts once; and wherever
an audit tried some inputs and was clean, every method that is called is ready, and a granted
candidate could run exactly if no call that happens below it is refused by its verdict. -/
theorem clean_vetted {d : Declarations} (hd : d.Declared) {policy : Policy}
    (hpolicy : policy.Serves) {system : System} (hfinish : d.finish policy = .ok system) :
    ∃ verdict, system.Asked verdict d ∧ ∀ inputs base audit report,
      Audit.ofInputs system inputs base = .ok audit → audit.run = .ok report →
        report.isClean = true → ∀ assignment < audit.assignments, ∀ valuation,
          system.evaluate (audit.stimulus assignment) = .ok valuation →
            system.Vetted valuation verdict := by
  obtain ⟨verdict, hasked, hdecides⟩ := exists_decides hd hpolicy hfinish
  refine ⟨verdict, hasked, ?_⟩
  intro inputs base audit report haudit hrun hclean assignment hlt valuation heval
  obtain ⟨reach, s, h, hverdict⟩ := hdecides _ valuation heval
  obtain rfl := Audit.system_of_ofInputs haudit
  have hkept := (Audit.isClean_iff hrun).mp hclean assignment hlt valuation heval
  refine h.vetted hverdict (fun a ⟨action, haction, hruns⟩ => ?_) ?_
  · by_contra hidle
    refine hkept _ (.unready haction hruns ?_)
    rw [← Bool.not_eq_true]
    exact fun hready => hidle ⟨action, haction, hready⟩
  · intro c candidate hcandidate hgranted t ht
    by_contra hidle
    exact hkept _ (.partly hcandidate hgranted ht hidle)

/-- The policy that grants all candidates at all times. -/
def heedless : Policy :=
  ⟨"heedless", fun contention _ => do
    let high ← Build.high
    return List.replicate contention.size high⟩

theorem heedless_serves : heedless.Serves where
  grows := fun _ _ => Build.bind_grows Build.high_grows fun _ => Build.pure_grows _
  length_eq := by
    intro contention runnable c grants c' hyields
    obtain ⟨high, c₁, -, hyields⟩ := Build.yields_bind_iff.mp hyields
    obtain ⟨rfl, -⟩ := Build.yields_pure_iff.mp hyields
    exact List.length_replicate

theorem item_valid : Field.Valid [⟨"item", 1⟩] := ⟨by decide, by decide⟩

/-- A keeper that always stores an item, in a store that takes nothing but ones. -/
def strictStore : Declare Unit := do
  let go ← Declare.logic Build.high
  let item ← Declare.logic (Build.input "item" 1)
  let keeper ← Declare.transaction "keeper" none go
  let store ← Declare.method
    { name := "store"
      input := ⟨[⟨"item", 1⟩], item_valid⟩
      validator := some fun arguments => return arguments.nodeAt 0 }
  let _ ← Declare.call keeper store.action go ⟨[(⟨"item", 1⟩, item)]⟩

theorem strictStore_declares : strictStore.Declares := by
  have hvalidator : ∀ validator : Validator,
      some (fun arguments : Bundle => (return arguments.nodeAt 0 : Build NodeId)) = some validator →
        ∀ arguments, (validator arguments).Grows := by
    intro validator hvalidator arguments
    cases hvalidator
    exact Build.pure_grows _
  refine Declare.bind_declares (Declare.logic_declares Build.high_grows) fun go => ?_
  refine Declare.bind_declares (Declare.logic_declares (Build.input_grows _ _)) fun item => ?_
  refine Declare.bind_declares (Declare.transaction_declares _ _ _) fun keeper => ?_
  refine Declare.bind_declares (Declare.method_declares hvalidator nofun) fun store => ?_
  refine Declare.bind_declares (Declare.call_declares _ _ _ _) fun _ => ?_
  exact Declare.pure_declares ()

/-- Whether nothing is listed under any assignment. -/
def Audit.passes (audit : Audit) : Bool :=
  (List.range audit.assignments).all fun assignment =>
    match audit.system.evaluate (audit.stimulus assignment) with
    | .ok valuation => ((Watch.ofSystem audit.system).breaches valuation).isEmpty
    | .error _ => false

theorem Audit.exists_clean_of_passes {audit : Audit} (h : audit.passes = true) :
    ∃ report, audit.run = .ok report ∧ report.isClean = true := by
  refine exists_clean fun assignment hlt => ?_
  have hone := List.all_eq_true.mp h assignment (List.mem_range.mpr hlt)
  split at hone
  · rename_i valuation heval
    exact ⟨valuation, heval, List.isEmpty_iff.mp hone⟩
  · cases hone

/-- Where everything is granted and the item is a zero, the audit of all inputs is clean, and the
store is called with what it does not take. -/
theorem strictStore_passes : (strictStore.run.run .empty).2.passesWith heedless
    (Stimulus.empty.set 1 0) (fun system valuation =>
      (Audit.mk system [1] .empty).passes &&
        system.wiring.runnable.map valuation.bit == [false] &&
        system.wiring.grants.map valuation.bit == [true] &&
        valuation.bit (system.wiring.callRuns.getD 0 0)) = true := by
  decide +kernel

theorem strictStore_audited : ∃ system valuation,
    (strictStore.run.run .empty).2.finish heedless = .ok system ∧
      system.evaluate (Stimulus.empty.set 1 0) = .ok valuation ∧
      (∃ report, (Audit.mk system [1] .empty).run = .ok report ∧ report.isClean = true) ∧
      system.Granted valuation 0 ∧ ¬ system.Runnable valuation 0 ∧
      system.Happens valuation 0 := by
  obtain ⟨system, valuation, hfinish, heval, hcheck⟩ := exists_of_passesWith strictStore_passes
  simp only [Bool.and_eq_true, beq_iff_eq] at hcheck
  obtain ⟨⟨⟨hclean, hrunnable⟩, hgrants⟩, hhappens⟩ := hcheck
  refine ⟨system, valuation, hfinish, heval, Audit.exists_clean_of_passes hclean, ?_, ?_, hhappens⟩
  · rw [System.granted_iff_getElem?, hgrants]
    rfl
  · rw [System.runnable_iff_getElem?, hrunnable]
    nofun

/-- The audit of all assignments is clean, yet the keeper is granted while it could not run, and the
call whose arguments the store refuses happens. -/
theorem clean_audit_grants_unrunnable : ∃ system audit report valuation,
    (strictStore.run.run .empty).2.finish heedless = .ok system ∧
      Audit.ofInputs system [1] .empty = .ok audit ∧ audit.run = .ok report ∧
      report.isClean = true ∧ 0 < audit.assignments ∧
      system.evaluate (audit.stimulus 0) = .ok valuation ∧ system.Granted valuation 0 ∧
      ¬ system.Runnable valuation 0 ∧ system.Happens valuation 0 := by
  obtain ⟨system, valuation, hfinish, heval, ⟨report, hrun, hclean⟩, hfound⟩ := strictStore_audited
  exact ⟨system, _, report, valuation, hfinish, rfl, hrun, hclean,
    Audit.assignments_pos, heval, hfound⟩

/-- What the keeper could not run for is the refused call. -/
theorem strictStore_vetted : ∃ system verdict valuation,
    (strictStore.run.run .empty).2.finish heedless = .ok system ∧
      system.Asked verdict (strictStore.run.run .empty).2 ∧
      system.evaluate (Stimulus.empty.set 1 0) = .ok valuation ∧
      system.Vetted valuation verdict ∧ system.Granted valuation 0 ∧
      ∃ id, system.HappensBelow valuation 0 id ∧ system.Refuses valuation verdict id := by
  obtain ⟨system, valuation, hfinish, heval, ⟨report, hrun, hclean⟩, hgranted, hidle, -⟩ :=
    strictStore_audited
  obtain ⟨verdict, hasked, hvetted⟩ :=
    clean_vetted strictStore_declares.declared heedless_serves hfinish
  have hone := hvetted [1] .empty _ report rfl hrun hclean 0 Audit.assignments_pos
    valuation heval
  refine ⟨system, verdict, valuation, hfinish, hasked, heval, hone, hgranted, ?_⟩
  rw [hone.runnable_iff 0 hgranted] at hidle
  simpa only [not_forall, not_not, exists_prop] using hidle

end Interlock
