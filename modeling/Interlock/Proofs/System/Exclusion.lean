/-
What never happens twice in one cycle of a finished design.

Whatever runs takes part in a candidate that is granted, and candidates that conflict are never
granted together.  So it is enough that the candidates of two actions conflict, or, where both
actions may belong to one candidate, that no candidate is kept in which they would meet.
-/
import Interlock.Proofs.System.Running

namespace Interlock

namespace Cycle

variable {d : Declarations} {system : System} {valuation : Valuation} {reach : Reach} {s : Settled}
  (h : Cycle d .eager system valuation reach s)
include h

/-- The ends of a declared conflict never run together. -/
theorem not_runs_ends {relation : Relation} (hrelation : relation ∈ d.plan.couplings.relations)
    (hconflict : relation.isConflict = true) (hstart : system.Runs valuation relation.start) :
    ¬ system.Runs valuation relation.finish := by
  intro hfinish
  obtain ⟨t, c, ht, hc, hgrant⟩ := h.exists_granted hstart
  obtain ⟨t', c', ht', hc', hgrant'⟩ := h.exists_granted hfinish
  rw [← h.followed.plan_eq] at hrelation
  have hclash := h.workedOut.conflict_of_ends hrelation hconflict hc hc'
  exact absurd hclash (by simp [h.not_inConflict ht ht' hgrant hgrant'])

/-- Calls of an exclusive method that happen are one call. -/
theorem happens_unique {m : ActionId} {method : Action}
    (hm : (m, method) ∈ d.plan.roster.methods) (hexclusive : method.isNonexclusive = false)
    {call call' : CallId × CallSite} (hcall : call ∈ d.plan.calls.byCallee m)
    (hcall' : call' ∈ d.plan.calls.byCallee m) (hhappens : system.Happens valuation call.1)
    (hhappens' : system.Happens valuation call'.1) : call = call' := by
  obtain ⟨hsite, hcallee⟩ := Calls.mem_byCallee.mp hcall
  obtain ⟨hsite', hcallee'⟩ := Calls.mem_byCallee.mp hcall'
  obtain ⟨t, ids, ht, hruns, hleads⟩ := h.exists_leads hsite hhappens
  obtain ⟨t', ids', ht', hruns', hleads'⟩ := h.exists_leads hsite' hhappens'
  obtain ⟨c, hc, hgrant⟩ := (h.runs_transaction_iff ht).mp hruns
  obtain ⟨c', hc', hgrant'⟩ := (h.runs_transaction_iff ht').mp hruns'
  have hfree := h.not_inConflict hc hc' hgrant hgrant'
  rw [← h.followed.plan_eq] at hm
  have hpath : ⟨call.2.callee, ids ++ [call.1]⟩ ∈ reach.pathsOf t :=
    h.followed.mem_pathsOf.mpr hleads
  have hpath' : ⟨call'.2.callee, ids' ++ [call'.1]⟩ ∈ reach.pathsOf t' :=
    h.followed.mem_pathsOf.mpr hleads'
  -- By way of two candidates the calls would clash; within one candidate there is one way.
  have hsame : c = c' := by
    by_contra hne
    have huse := h.workedOut.mem_usersOf.mpr ⟨t, hc, .inr ⟨_, hpath, hcallee⟩⟩
    have huse' := h.workedOut.mem_usersOf.mpr ⟨t', hc', .inr ⟨_, hpath', hcallee'⟩⟩
    rw [h.workedOut.conflict_of_users hm hexclusive huse huse' hne] at hfree
    cases hfree
  subst hsame
  obtain ⟨-, hway⟩ :=
    h.workedOut.way_unique hm hexclusive hc hc' hpath hcallee hpath' hcallee'
  obtain ⟨-, hids⟩ := CallPath.mk.inj hway
  have hid : call.1 = call'.1 := List.singleton_inj.mp (List.append_inj_right' hids rfl)
  refine Prod.ext hid (Option.some.inj ?_)
  rw [← hsite, hid, hsite']

/-- What the candidates keep apart are transactions. -/
theorem isTransaction_of_independent {x y : ActionId}
    (hxy : (x, y) ∈ system.contention.independent) :
    system.IsTransaction x ∧ system.IsTransaction y := by
  obtain ⟨hx, hy⟩ := Reach.mem_transactions_of_mem_apart h.workedOut.ties_eq hxy
  rw [h.followed.plan_eq] at hx hy
  exact ⟨h.isTransaction_of_mem hx, h.isTransaction_of_mem hy⟩

/-- Transactions that are kept apart never run together. -/
theorem not_runs_apart {x y : ActionId} (hxy : (x, y) ∈ system.contention.independent)
    (hx : system.Runs valuation x) : ¬ system.Runs valuation y := by
  intro hy
  obtain ⟨htransaction, htransaction'⟩ := h.isTransaction_of_independent hxy
  obtain ⟨c, hc, hgrant⟩ := (h.runs_transaction_iff htransaction).mp hx
  obtain ⟨c', hc', hgrant'⟩ := (h.runs_transaction_iff htransaction').mp hy
  have hclash := h.workedOut.conflict_of_apart hxy hc hc'
  exact absurd hclash (by simp [h.not_inConflict hc hc' hgrant hgrant'])

end Cycle

/-- What a cycle of a finished design excludes. -/
structure System.Excludes (d : Declarations) (system : System) (valuation : Valuation) : Prop where
  /-- The ends of a declared conflict do not both run. -/
  ends : ∀ relation ∈ d.plan.couplings.relations, relation.isConflict = true →
    ¬ (system.Runs valuation relation.start ∧ system.Runs valuation relation.finish)
  /-- Of the calls of an exclusive method, one happens at most. -/
  calls : ∀ m method, (m, method) ∈ d.plan.roster.methods → method.isNonexclusive = false →
    ∀ call ∈ d.plan.calls.byCallee m, ∀ call' ∈ d.plan.calls.byCallee m,
      system.Happens valuation call.1 → system.Happens valuation call'.1 → call = call'
  /-- Transactions that are kept apart do not both run. -/
  apart : ∀ x y, (x, y) ∈ system.contention.independent →
    ¬ (system.Runs valuation x ∧ system.Runs valuation y)

/-- **Mutual exclusion.**  However a design was declared, and whatever words are applied to the
inputs of the system it is finished to: the ends of a declared conflict do not both run, an
exclusive method is called once at most, and transactions that are kept apart do not both run. -/
theorem mutual_exclusion {d : Declarations} (hd : d.Declared) {system : System}
    (hfinish : d.finish .eager = .ok system) {stimulus : Stimulus} {valuation : Valuation}
    (heval : system.evaluate stimulus = .ok valuation) : system.Excludes d valuation := by
  obtain ⟨reach, s, h⟩ := cycle_of_evaluate hd hfinish heval
  exact
    { ends := fun _ hrelation hconflict ⟨hstart, hend⟩ =>
        h.not_runs_ends hrelation hconflict hstart hend
      calls := fun _ _ hm hexclusive _ hcall _ hcall' hhappens hhappens' =>
        h.happens_unique hm hexclusive hcall hcall' hhappens hhappens'
      apart := fun _ _ hxy ⟨hx, hy⟩ => h.not_runs_apart hxy hx hy }

/-- A port that a reader and a writer call, a maintainer that conflicts with the port, and a
clock that runs with the reader or the writer. -/
def sharedPort : Declare Unit := do
  let go ← Declare.logic Build.high
  let reader ← Declare.transaction "reader" none go
  let writer ← Declare.transaction "writer" none go
  let maintainer ← Declare.transaction "maintainer" none go
  let clock ← Declare.transaction "clock" none go
  let port ← Declare.method { name := "port" }
  let _ ← Declare.call reader port.action go .empty
  let _ ← Declare.call writer port.action go .empty
  Declare.conflict maintainer port.action .right
  Declare.alternatives clock [reader, writer]

theorem sharedPort_declares : sharedPort.Declares := by
  refine Declare.bind_declares (Declare.logic_declares Build.high_grows) fun go => ?_
  refine Declare.bind_declares (Declare.transaction_declares _ _ _) fun reader => ?_
  refine Declare.bind_declares (Declare.transaction_declares _ _ _) fun writer => ?_
  refine Declare.bind_declares (Declare.transaction_declares _ _ _) fun maintainer => ?_
  refine Declare.bind_declares (Declare.transaction_declares _ _ _) fun clock => ?_
  refine Declare.bind_declares (Declare.method_declares nofun nofun) fun port => ?_
  refine Declare.bind_declares (Declare.call_declares _ _ _ _) fun _ => ?_
  refine Declare.bind_declares (Declare.call_declares _ _ _ _) fun _ => ?_
  refine Declare.bind_declares (Declare.conflict_declares _ _ _) fun _ => ?_
  exact Declare.alternatives_declares _ _

theorem sharedPort_excludes : ∃ system valuation,
    (sharedPort.run.run .empty).2.finish .eager = .ok system ∧
      system.evaluate .empty = .ok valuation ∧
      system.runs valuation = [true, false, false, true, true] ∧
      system.Excludes (sharedPort.run.run .empty).2 valuation := by
  have hpasses : (sharedPort.run.run .empty).2.passes .empty (fun system valuation =>
      system.runs valuation == [true, false, false, true, true]) = true := by
    decide +kernel
  obtain ⟨system, valuation, hfinish, heval, hruns⟩ := exists_of_passes hpasses
  exact ⟨system, valuation, hfinish, heval, eq_of_beq hruns,
    mutual_exclusion sharedPort_declares.declared hfinish heval⟩

end Interlock
