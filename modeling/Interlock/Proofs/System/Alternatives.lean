/-
How far alternatives exclude each other.

Alternatives are declared between any actions, but what is kept apart in the end are the different
transactions that carry them.  So two alternatives are never brought by two transactions, which
leaves the transaction that brings both: a caller of two methods, or a method and its own caller.
There nothing is refused and nothing is kept apart, and the alternatives run together whenever
that transaction runs and enables both.
-/
import Interlock.Proofs.System.Exclusion

namespace Interlock

namespace Cycle

variable {d : Declarations} {system : System} {valuation : Valuation} {reach : Reach} {s : Settled}
  (h : Cycle d .eager system valuation reach s)
include h

/-- Transactions that run and bring alternatives are one transaction. -/
theorem eq_of_independent {a b t t' : ActionId}
    (hab : (a, b) ∈ d.plan.couplings.independent)
    (ht : system.IsTransaction t) (hruns : system.Runs valuation t)
    (hbrings : system.Brings valuation t a)
    (ht' : system.IsTransaction t') (hruns' : system.Runs valuation t')
    (hbrings' : system.Brings valuation t' b) : t = t' := by
  by_contra hne
  rw [← h.followed.plan_eq] at hab
  have hapart : ordered t t' ∈ system.contention.independent :=
    Reach.separates_of_independent h.workedOut.ties_eq hab (h.mem_standsFor_of_brings ht hbrings)
      (h.mem_standsFor_of_brings ht' hbrings') hne
  rcases ordered_or t t' with heq | heq
  · rw [heq] at hapart
    exact h.not_runs_apart hapart hruns hruns'
  · rw [heq] at hapart
    exact h.not_runs_apart hapart hruns' hruns

/-- Alternatives that run together are brought by one transaction. -/
theorem exists_brings_both {x y : ActionId}
    (hxy : ordered x y ∈ d.plan.couplings.independent) (hx : system.Runs valuation x)
    (hy : system.Runs valuation y) : ∃ t, system.IsTransaction t ∧ system.Runs valuation t ∧
      system.Brings valuation t x ∧ system.Brings valuation t y := by
  obtain ⟨t, ht, hruns, hbrings⟩ := h.exists_brings hx
  obtain ⟨t', ht', hruns', hbrings'⟩ := h.exists_brings hy
  have hsame : t = t' := by
    rcases ordered_or x y with heq | heq
    · rw [heq] at hxy
      exact h.eq_of_independent hxy ht hruns hbrings ht' hruns' hbrings'
    · rw [heq] at hxy
      exact (h.eq_of_independent hxy ht' hruns' hbrings' ht hruns hbrings).symm
  subst hsame
  exact ⟨t, ht, hruns, hbrings, hbrings'⟩

end Cycle

/-- **Alternatives run together only by way of one transaction.**  If an offer of alternatives was
accepted, two different ones of them run in one cycle exactly if a transaction that runs brings
both. -/
theorem alternatives_run_iff {d₀ d₁ d : Declarations} (hd₀ : d₀.Declared) {a : ActionId}
    {others : List ActionId} (hoffer : (Declare.alternatives a others).run.run d₀ = (.ok (), d₁))
    (hsteps : Declarations.Steps d₁ d) {system : System} (hfinish : d.finish .eager = .ok system)
    {stimulus : Stimulus} {valuation : Valuation}
    (heval : system.evaluate stimulus = .ok valuation) {x y : ActionId} (hx : x ∈ others)
    (hy : y ∈ others) (hne : x ≠ y) :
    (system.Runs valuation x ∧ system.Runs valuation y) ↔
      ∃ t, system.IsTransaction t ∧ system.Runs valuation t ∧
        system.Brings valuation t x ∧ system.Brings valuation t y := by
  obtain ⟨hsound₁, -, hpairs⟩ := Declare.alternatives_keeps a others hd₀.sound _ _ hoffer
  have hxy : ordered x y ∈ d.plan.couplings.independent :=
    (hsteps.sound hsound₁).2.couplings.independent (hpairs () rfl x hx y hy hne)
  have hstep : Declarations.Step d₀ d₁ := by
    have hstep := Declarations.Step.alternatives d₀ a others
    rw [hoffer] at hstep
    exact hstep
  have hd : d.Declared := (Declarations.Steps.step hd₀ hstep).trans hsteps
  obtain ⟨reach, s, h⟩ := cycle_of_evaluate hd hfinish heval
  constructor
  · rintro ⟨hrunsx, hrunsy⟩
    exact h.exists_brings_both hxy hrunsx hrunsy
  · rintro ⟨t, -, hruns, hbringsx, hbringsy⟩
    exact ⟨h.runs_of_brings hruns hbringsx, h.runs_of_brings hruns hbringsy⟩

/-- A clock, and a worker that calls two methods. -/
def twoTasks : Declare Unit := do
  let go ← Declare.logic Build.high
  let _ ← Declare.transaction "clock" none go
  let worker ← Declare.transaction "worker" none go
  let fetch ← Declare.method { name := "fetch" }
  let store ← Declare.method { name := "store" }
  let _ ← Declare.call worker fetch.action go .empty
  let _ ← Declare.call worker store.action go .empty

theorem twoTasks_declares : twoTasks.Declares := by
  refine Declare.bind_declares (Declare.logic_declares Build.high_grows) fun go => ?_
  refine Declare.bind_declares (Declare.transaction_declares _ _ _) fun _ => ?_
  refine Declare.bind_declares (Declare.transaction_declares _ _ _) fun worker => ?_
  refine Declare.bind_declares (Declare.method_declares nofun nofun) fun fetch => ?_
  refine Declare.bind_declares (Declare.method_declares nofun nofun) fun store => ?_
  refine Declare.bind_declares (Declare.call_declares _ _ _ _) fun _ => ?_
  refine Declare.bind_declares (Declare.call_declares _ _ _ _) fun _ => ?_
  exact Declare.pure_declares ()

/-- The design before the two methods are offered to the clock as alternatives. -/
def beforeOffer : Declarations := (twoTasks.run.run .empty).2

/-- The design after that. -/
def afterOffer : Declarations := ((Declare.alternatives 0 [2, 3]).run.run beforeOffer).2

theorem offer_accepted :
    (Declare.alternatives 0 [2, 3]).run.run beforeOffer = (.ok (), afterOffer) := by
  refine Declare.run_of_isOk ?_
  decide +kernel

theorem offer_runs : ∃ system valuation, afterOffer.finish .eager = .ok system ∧
    system.evaluate .empty = .ok valuation ∧
    system.runs valuation = [true, true, true, true] := by
  have hpasses : afterOffer.passes .empty (fun system valuation =>
      system.runs valuation == [true, true, true, true]) = true := by
    decide +kernel
  obtain ⟨system, valuation, hfinish, heval, hruns⟩ := exists_of_passes hpasses
  exact ⟨system, valuation, hfinish, heval, eq_of_beq hruns⟩

theorem offered_run_iff : ∃ system valuation, afterOffer.finish .eager = .ok system ∧
    system.evaluate .empty = .ok valuation ∧
    ((system.Runs valuation 2 ∧ system.Runs valuation 3) ↔
      ∃ t, system.IsTransaction t ∧ system.Runs valuation t ∧
        system.Brings valuation t 2 ∧ system.Brings valuation t 3) := by
  obtain ⟨system, valuation, hfinish, heval, -⟩ := offer_runs
  exact ⟨system, valuation, hfinish, heval, alternatives_run_iff twoTasks_declares.declared
    offer_accepted (.refl _) hfinish heval (by decide) (by decide) (by decide)⟩

/-- Two alternatives that one transaction calls do run in one cycle. -/
theorem offered_both_run : ∃ system valuation, afterOffer.finish .eager = .ok system ∧
    system.evaluate .empty = .ok valuation ∧
    system.Runs valuation 2 ∧ system.Runs valuation 3 := by
  obtain ⟨system, valuation, hfinish, heval, hruns⟩ := offer_runs
  refine ⟨system, valuation, hfinish, heval, ?_, ?_⟩
  · rw [system.runs_iff_getElem?, hruns]
    rfl
  · rw [system.runs_iff_getElem?, hruns]
    rfl

end Interlock
