/-
Run bits come down from the grants, whatever policy made them.

A policy is trusted with nothing but to answer one grant for every candidate.  Whatever it grants,
the wiring below is exact: a transaction runs if one of its candidates is granted, a call happens
if its caller runs and enables it, and a method runs if some running transaction reaches it by a
call path all of whose sites are enabled.  Downwards that is an induction on the path; upwards it
is the search for the transaction, which ends because call paths do.
-/
import Interlock.Proofs.System.Running

namespace Interlock

/-- The action is a method. -/
def System.IsMethod (system : System) (a : ActionId) : Prop :=
  ∃ action, system.roster.actions[a]? = some action ∧ action.isMethod = true

/-- No method is a transaction. -/
theorem System.IsMethod.not_isTransaction {system : System} {m : ActionId}
    (hm : system.IsMethod m) : ¬ system.IsTransaction m := by
  rintro ⟨action, haction, htransaction⟩
  obtain ⟨method, hmethod, hrole⟩ := hm
  rw [haction] at hmethod
  cases hmethod
  unfold Action.isTransaction at htransaction
  rw [Option.isNone_iff_eq_none] at htransaction
  unfold Action.isMethod at hrole
  rw [htransaction] at hrole
  cases hrole

/-- The call paths of an action. -/
def System.pathsOf (system : System) (a : ActionId) : List CallPath :=
  system.contention.slate.reach.pathsOf a

/-- Who runs in a cycle, from the grants down. -/
structure System.HandsDown (system : System) (valuation : Valuation) : Prop where
  /-- A transaction runs if a candidate that it is a member of is granted. -/
  transaction : ∀ t, system.IsTransaction t → (system.Runs valuation t ↔
    ∃ c candidate, system.contention.candidates[c]? = some candidate ∧ t ∈ candidate.members ∧
      system.Granted valuation c)
  /-- A call happens if its caller runs and enables it. -/
  call : ∀ id site, system.calls.sites[id]? = some site → (system.Happens valuation id ↔
    system.Runs valuation site.caller ∧ system.Enables valuation id)
  /-- A method runs if a running transaction reaches it by enabled call sites. -/
  method : ∀ m, system.IsMethod m → (system.Runs valuation m ↔
    ∃ t, system.IsTransaction t ∧ system.Runs valuation t ∧ ∃ path ∈ system.pathsOf t,
      path.method = m ∧ ∀ id ∈ path.sites, system.Enables valuation id)
  /-- A method that no transaction reaches never runs. -/
  unreached : ∀ m, system.IsMethod m →
    (∀ t, system.IsTransaction t → ∀ path ∈ system.pathsOf t, path.method ≠ m) →
      ¬ system.Runs valuation m

namespace Cycle

variable {d : Declarations} {policy : Policy} {system : System} {valuation : Valuation}
  {reach : Reach} {s : Settled} (h : Cycle d policy system valuation reach s)
include h

theorem mem_pathsOf {t : ActionId} {path : CallPath} :
    path ∈ system.pathsOf t ↔ d.plan.calls.Leads t path.sites path.method := by
  unfold System.pathsOf
  rw [h.workedOut.reach_eq]
  exact h.followed.mem_pathsOf

/-- A method runs if a running transaction reaches it by enabled call sites. -/
theorem runs_iff_reached {m : ActionId} (hm : system.IsMethod m) : system.Runs valuation m ↔
    ∃ t, system.IsTransaction t ∧ system.Runs valuation t ∧ ∃ path ∈ system.pathsOf t,
      path.method = m ∧ ∀ id ∈ path.sites, system.Enables valuation id := by
  constructor
  · intro hruns
    obtain ⟨t, ht, hrunst, hbrings⟩ := h.exists_brings hruns
    rcases h.brings_iff.mp hbrings with rfl | ⟨ids, hleads, henables⟩
    · exact absurd ht hm.not_isTransaction
    · exact ⟨t, ht, hrunst, ⟨m, ids⟩, h.mem_pathsOf.mpr hleads, rfl, henables⟩
  · rintro ⟨t, -, hrunst, path, hpath, rfl, henables⟩
    exact (h.happens_of_leads (h.mem_pathsOf.mp hpath) hrunst henables).2

end Cycle

/-- **Run bits are handed down.**  However a design was declared, whatever policy answers one
grant for every candidate, and whatever words are applied to the inputs: transactions run by the
grants, calls by their callers, and methods by the call paths of running transactions. -/
theorem runs_handed_down {d : Declarations} (hd : d.Declared) {policy : Policy}
    (hpolicy : policy.Serves) {system : System} (hfinish : d.finish policy = .ok system)
    {stimulus : Stimulus} {valuation : Valuation}
    (heval : system.evaluate stimulus = .ok valuation) : system.HandsDown valuation := by
  obtain ⟨reach, s, h⟩ := exists_cycle hd hpolicy hfinish heval
  refine ⟨fun t ht => ?_, fun id site hsite => ?_, fun m hm => h.runs_iff_reached hm,
    fun m hm hnone hruns => ?_⟩
  · rw [h.runs_iff_granted ht]
    constructor
    · rintro ⟨c, hc, hgranted⟩
      obtain ⟨candidate, hcandidate, hmember⟩ := Slate.mem_holdersOf.mp hc
      exact ⟨c, candidate, hcandidate, hmember, hgranted⟩
    · rintro ⟨c, candidate, hcandidate, hmember, hgranted⟩
      exact ⟨c, Slate.mem_holdersOf.mpr ⟨candidate, hcandidate, hmember⟩, hgranted⟩
  · unfold System.calls at hsite
    rw [h.plan_eq] at hsite
    exact h.happens_iff hsite
  · obtain ⟨t, ht, -, path, hpath, hmethod, -⟩ := (h.runs_iff_reached hm).mp hruns
    exact hnone t ht path hpath hmethod

/-- The policy that grants whatever could run, conflict or not. -/
def generous : Policy :=
  ⟨"generous", fun contention runnable =>
    pure ((List.range contention.size).map (runnable.getD · 0))⟩

theorem generous_serves : generous.Serves where
  grows := fun _ _ => Build.pure_grows _
  length_eq := by
    intro contention runnable c grants c' hyields
    obtain ⟨rfl, -⟩ := Build.yields_pure_iff.mp hyields
    simp

/-- Two transactions that call one method, which may hand on to another, and a method that calls
this too but that nobody calls. -/
def relay : Declare Unit := do
  let go ← Declare.logic Build.high
  let onward ← Declare.logic (Build.input "onward" 1)
  let front ← Declare.transaction "front" none go
  let back ← Declare.transaction "back" none go
  let fetch ← Declare.method { name := "fetch" }
  let store ← Declare.method { name := "store" }
  let spare ← Declare.method { name := "spare" }
  let _ ← Declare.call front fetch.action go .empty
  let _ ← Declare.call back fetch.action go .empty
  let _ ← Declare.call fetch.action store.action onward .empty
  let _ ← Declare.call spare.action store.action go .empty

theorem relay_declares : relay.Declares := by
  refine Declare.bind_declares (Declare.logic_declares Build.high_grows) fun go => ?_
  refine Declare.bind_declares (Declare.logic_declares (Build.input_grows _ _)) fun onward => ?_
  refine Declare.bind_declares (Declare.transaction_declares _ _ _) fun front => ?_
  refine Declare.bind_declares (Declare.transaction_declares _ _ _) fun back => ?_
  refine Declare.bind_declares (Declare.method_declares nofun nofun) fun fetch => ?_
  refine Declare.bind_declares (Declare.method_declares nofun nofun) fun store => ?_
  refine Declare.bind_declares (Declare.method_declares nofun nofun) fun spare => ?_
  refine Declare.bind_declares (Declare.call_declares _ _ _ _) fun _ => ?_
  refine Declare.bind_declares (Declare.call_declares _ _ _ _) fun _ => ?_
  refine Declare.bind_declares (Declare.call_declares _ _ _ _) fun _ => ?_
  refine Declare.bind_declares (Declare.call_declares _ _ _ _) fun _ => ?_
  exact Declare.pure_declares ()

theorem relay_hands_down : ∃ system valuation,
    (relay.run.run .empty).2.finish generous = .ok system ∧
      system.evaluate ⟨[(1, 1)]⟩ = .ok valuation ∧
      system.runs valuation = [true, true, true, true, false] ∧ system.HandsDown valuation := by
  have hpasses : (relay.run.run .empty).2.passesWith generous ⟨[(1, 1)]⟩ (fun system valuation =>
      system.runs valuation == [true, true, true, true, false]) = true := by
    decide +kernel
  obtain ⟨system, valuation, hfinish, heval, hruns⟩ := exists_of_passesWith hpasses
  exact ⟨system, valuation, hfinish, heval, eq_of_beq hruns,
    runs_handed_down relay_declares.declared generous_serves hfinish heval⟩

end Interlock
