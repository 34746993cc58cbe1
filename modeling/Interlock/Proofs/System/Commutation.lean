/-
Declarations about pairs of actions commute.

The logic that schedules a design asks the plan for its actions and calls, and the contention for
its candidates, their order and which of them conflict.  None of this depends on the order in which
relations were declared or on the end that a conflict was given by, so the same nodes are added,
one after the other, and the finished circuits are equal node by node.
-/
import Interlock.Proofs.Contention.Alike
import Interlock.Proofs.System.Running

namespace Interlock

namespace Wiring

variable {plan plan' : Plan} {contention contention' : Contention}

section Plan

variable (h : plan.Alike plan')
include h

theorem groundOutputs_alike : groundOutputs plan' = groundOutputs plan := by
  unfold groundOutputs
  rw [h.roster]

theorem acceptSite_alike : acceptSite plan' = acceptSite plan := by
  funext below accepted site
  unfold acceptSite
  rw [h.roster]

theorem accept_alike (depth : Nat) : accept plan' depth = accept plan depth := by
  induction depth with
  | zero => rfl
  | succ depth ih =>
      funext accepted action
      unfold accept
      rw [h.calls, ih, acceptSite_alike h]

theorem acceptAll_alike : acceptAll plan' = acceptAll plan := by
  unfold acceptAll
  rw [h.roster, accept_alike h]

theorem candidateRunnable_alike : candidateRunnable plan' = candidateRunnable plan := by
  funext accepted candidate
  unfold candidateRunnable readyOf
  rw [h.roster]

theorem runCall_alike : runCall plan' = runCall plan := by
  funext site
  unfold runCall runOf
  rw [h.roster]

theorem runMethod_alike : runMethod plan' = runMethod plan := by
  funext callRuns id method
  unfold runMethod
  rw [h.calls]

end Plan

section Contention

variable (h : contention.Alike contention')
include h

theorem candidates_alike : contention'.candidates = contention.candidates := h.slate.candidates

theorem size_alike : contention'.size = contention.size :=
  congrArg List.length (candidates_alike h)

theorem eagerGrants_alike : Policy.eagerGrants contention' = Policy.eagerGrants contention := by
  funext runnable
  unfold Policy.eagerGrants Policy.eagerDecide Policy.eagerGrant Contention.rivals
  rw [h.order, h.inConflict, size_alike h]

theorem runTransaction_alike : runTransaction contention' = runTransaction contention := by
  funext grants id transaction
  unfold runTransaction Contention.holdersOf
  rw [h.slate.holdersOf_eq]

end Contention

/-- The same logic is added. -/
theorem connect_alike (hplan : plan.Alike plan') (h : contention.Alike contention') :
    connect plan' contention' .eager = connect plan contention .eager := by
  unfold connect
  show (acceptAll plan' >>= fun accepted => _ >>= fun runnable =>
    Policy.eagerGrants contention' runnable >>= _) = _
  rw [acceptAll_alike hplan, candidateRunnable_alike hplan, candidates_alike h,
    eagerGrants_alike h, runTransaction_alike h, runCall_alike hplan, runMethod_alike hplan,
    hplan.roster, hplan.calls]
  rfl

end Wiring

namespace System

/-- The systems have the same candidates under the same rules, and nothing that is applied to them
makes their actions run otherwise or their methods see other arguments. -/
structure Equivalent (s s' : System) : Prop where
  candidates : s'.contention.candidates = s.contention.candidates
  edges : s'.contention.edges = s.contention.edges
  priorities : s'.contention.priorities = s.contention.priorities
  order : s'.contention.order = s.contention.order
  evaluates : ∀ stimulus, (s'.evaluate stimulus).isOk = (s.evaluate stimulus).isOk
  runs : ∀ stimulus valuation valuation', s.evaluate stimulus = .ok valuation →
    s'.evaluate stimulus = .ok valuation' → s'.runs valuation' = s.runs valuation
  dataIn : ∀ stimulus valuation valuation', s.evaluate stimulus = .ok valuation →
    s'.evaluate stimulus = .ok valuation' →
      s'.roster.actions.toList.map (fun action => valuation'.fields action.dataIn) =
        s.roster.actions.toList.map fun action => valuation.fields action.dataIn

variable {s s' : System}

/-- Systems with one circuit, one roster and contentions that are alike are equivalent. -/
theorem equivalent_of_alike (hroster : s'.roster = s.roster) (hevaluator : s'.evaluator = s.evaluator)
    (hcontention : s.contention.Alike s'.contention) : s.Equivalent s' := by
  have hevaluate : ∀ stimulus, s'.evaluate stimulus = s.evaluate stimulus := by
    intro stimulus
    unfold evaluate
    rw [hevaluator]
  refine ⟨hcontention.slate.candidates, hcontention.edges, hcontention.priorities,
    hcontention.order, fun stimulus => by rw [hevaluate], ?_, ?_⟩
  · intro stimulus valuation valuation' heval heval'
    rw [hevaluate, heval] at heval'
    cases heval'
    unfold runs
    rw [hroster]
  · intro stimulus valuation valuation' heval heval'
    rw [hevaluate, heval] at heval'
    cases heval'
    rw [hroster]

end System

/-- A design of an alike plan is finished to an equivalent system. -/
theorem finish_alike {d d' : Declarations} (hcircuit : d'.circuit = d.circuit)
    (hplan : d.plan.Alike d'.plan) {system : System} (hfinish : d.finish .eager = .ok system) :
    ∃ system', d'.finish .eager = .ok system' ∧ system.Equivalent system' := by
  obtain ⟨grounded, wired, hground, hcontention, hconnect, hevaluator, hsystem, -⟩ :=
    finish_eq_ok_iff.mp hfinish
  obtain ⟨contention', hcontention', halike⟩ := Contention.ofPlan_alike hplan hcontention
  refine ⟨⟨d'.plan, contention', system.wiring, system.evaluator, Policy.eager.name⟩,
    finish_eq_ok_iff.mpr ⟨grounded, wired, ?_, hcontention', ?_, hevaluator, rfl, rfl⟩, ?_⟩
  · rw [Wiring.groundOutputs_alike hplan, hcircuit]
    exact hground
  · rw [Wiring.connect_alike hplan halike]
    exact hconnect
  · refine System.equivalent_of_alike ?_ rfl halike
    show d'.plan.roster = system.plan.roster
    rw [hsystem, hplan.roster]

/-- **Declarations about pairs of actions commute.**  The same declarations in another order, or
with conflicts given by the other end, are accepted if they were, the design can be finished with
the eager policy if it could, and the systems are equivalent. -/
theorem declarations_commute {l l' : List Coupling} (h : Coupling.Rearranged l l')
    (d : Declarations) :
    ((Coupling.declareAll l).run.run d).1.isOk = ((Coupling.declareAll l').run.run d).1.isOk ∧
      ∀ d₁ d₂, (Coupling.declareAll l).run.run d = (.ok (), d₁) →
        (Coupling.declareAll l').run.run d = (.ok (), d₂) →
          (d₁.finish .eager).isOk = (d₂.finish .eager).isOk ∧
            ∀ s₁ s₂, d₁.finish .eager = .ok s₁ → d₂.finish .eager = .ok s₂ →
              s₁.Equivalent s₂ := by
  refine ⟨?_, fun d₁ d₂ hfirst hsecond => ?_⟩
  · rw [Bool.eq_iff_iff, Coupling.declareAll_isOk_iff, Coupling.declareAll_isOk_iff,
      h.acceptable_iff]
  · have hd₁ := Coupling.declareAll_eq_ok l d hfirst
    have hd₂ := Coupling.declareAll_eq_ok l' d hsecond
    have hcircuit : d₂.circuit = d₁.circuit := by rw [hd₁, hd₂]
    have halike : d₁.plan.Alike d₂.plan := by
      rw [hd₁, hd₂]
      exact ⟨rfl, rfl, h.alike d.plan.couplings⟩
    constructor
    · rw [Bool.eq_iff_iff]
      constructor
      · intro hok
        obtain ⟨s₁, hs₁⟩ := exists_of_isOk hok
        obtain ⟨s₂, hs₂, -⟩ := finish_alike hcircuit halike hs₁
        rw [hs₂]
        rfl
      · intro hok
        obtain ⟨s₂, hs₂⟩ := exists_of_isOk hok
        obtain ⟨s₁, hs₁, -⟩ := finish_alike hcircuit.symm halike.symm hs₂
        rw [hs₁]
        rfl
    · intro s₁ s₂ hs₁ hs₂
      obtain ⟨system, hsystem, hequivalent⟩ := finish_alike hcircuit halike hs₁
      rw [hs₂] at hsystem
      cases hsystem
      exact hequivalent

/-- A memory of which nothing is said yet but what its writer calls. -/
def bareMemory : Declare Unit := do
  let go ← Declare.logic Build.high
  let _ ← Declare.transaction "scrub" none go
  let write ← Declare.transaction "write" none go
  let _ ← Declare.transaction "refresh" none go
  let port ← Declare.method { name := "port" }
  let _ ← Declare.call write port.action go .empty

/-- What is said of it in one design. -/
def portFirst : List Coupling := [.conflict 0 3 .right, .before 2 0, .conflict 1 2 .right]

/-- The same, but that the conflict of the port is declared last and from its other end. -/
def portLast : List Coupling := [.conflict 1 2 .right, .before 2 0, .conflict 3 0 .left]

/-- The memory, with something said of it. -/
def memoryWith (l : List Coupling) : Except Fault Unit × Declarations :=
  (Coupling.declareAll l).run.run (bareMemory.run.run .empty).2

theorem portFirst_rearranged : Coupling.Rearranged portFirst portLast := by
  refine ⟨[.conflict 1 2 .right, .before 2 0, .conflict 0 3 .right], ?_, ?_⟩
  · exact (List.reverse_perm portFirst).symm
  · exact .cons (.inl rfl) (.cons (.inl rfl) (.cons (.inr rfl) .nil))

theorem portFirst_commutes : ∃ s₁ s₂, (memoryWith portFirst).1.isOk = true ∧
    (memoryWith portLast).1.isOk = true ∧ (memoryWith portFirst).2.finish .eager = .ok s₁ ∧
    (memoryWith portLast).2.finish .eager = .ok s₂ ∧ s₁.Equivalent s₂ := by
  have haccepted : (memoryWith portFirst).1.isOk = true := by decide +kernel
  have hpasses : (memoryWith portFirst).2.passes .empty (fun system _ =>
      system.contention.edges == [(0, 1), (1, 2)]) = true := by
    decide +kernel
  obtain ⟨s₁, -, hs₁, -, -⟩ := exists_of_passes hpasses
  obtain ⟨hsame, hcommute⟩ :=
    declarations_commute portFirst_rearranged (bareMemory.run.run .empty).2
  have haccepted' : (memoryWith portLast).1.isOk = true := hsame ▸ haccepted
  obtain ⟨hfinished, hequivalent⟩ := hcommute _ _ (Declare.run_of_isOk haccepted)
    (Declare.run_of_isOk haccepted')
  have hok : ((memoryWith portFirst).2.finish .eager).isOk = true := by
    rw [hs₁]
    rfl
  obtain ⟨s₂, hs₂⟩ := exists_of_isOk (hfinished ▸ hok)
  exact ⟨s₁, s₂, haccepted, haccepted', hs₁, hs₂, hequivalent s₁ s₂ hs₁ hs₂⟩

end Interlock
