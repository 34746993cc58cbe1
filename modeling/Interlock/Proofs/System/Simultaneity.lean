/-
How far simultaneous transactions run together.

A candidate that holds a transaction holds whoever is tied to it, unless it holds an alternative of
that one: then the tie gives way, and nothing is refused.  Ties are checked against alternatives
pair by pair only.  So a transaction runs without its partners exactly if the candidate by which it
runs bars all of them, and this is so for partners that were declared to run with it and for
alternatives of which one was to run with it.
-/
import Interlock.Proofs.System.Exclusion

namespace Interlock

namespace Cycle

variable {d : Declarations} {system : System} {valuation : Valuation} {reach : Reach} {s : Settled}
  (h : Cycle d .eager system valuation reach s)
include h

/-- What a granted candidate bars does not run. -/
theorem not_runs_of_bars {c : Nat} {t : ActionId} (hgranted : system.Granted valuation c)
    (hbars : system.contention.Bars c t) : ¬ system.Runs valuation t := by
  obtain ⟨z, hz, hapart⟩ := hbars
  have hruns : system.IsTransaction z → system.Runs valuation z :=
    fun hz' => (h.runs_iff_granted hz').mpr ⟨c, hz, hgranted⟩
  rcases ordered_or z t with heq | heq
  · rw [heq] at hapart
    exact h.not_runs_apart hapart (hruns (h.isTransaction_of_independent hapart).1)
  · rw [heq] at hapart
    intro ht
    exact h.not_runs_apart hapart ht (hruns (h.isTransaction_of_independent hapart).2)

/-- Different transactions that were declared to run together are tied. -/
theorem mem_partners {a o : ActionId} (ha : system.IsTransaction a) (ho : system.IsTransaction o)
    (hdeclared : (a, o) ∈ d.plan.couplings.simultaneous) (hne : a ≠ o) :
    o ∈ system.contention.slate.ties.partners a ∧ a ∈ system.contention.slate.ties.partners o := by
  rw [← h.followed.plan_eq] at hdeclared
  exact Reach.mem_partners_of_simultaneous h.workedOut.ties_eq hdeclared
    (h.mem_standsFor_of_brings ha (.inl rfl)) (h.mem_standsFor_of_brings ho (.inl rfl)) hne

/-- **A transaction runs without any of its partners exactly if it runs by a candidate that bars
them all.** -/
theorem runs_without_iff {a : ActionId} (others : List ActionId) (ha : system.IsTransaction a)
    (hothers : ∀ o ∈ others, system.IsTransaction o)
    (htied : ∀ o ∈ others, a = o ∨ o ∈ system.contention.slate.ties.partners a) :
    (system.Runs valuation a ∧ ∀ o ∈ others, ¬ system.Runs valuation o) ↔
      ∃ c ∈ system.contention.holdersOf a, system.Granted valuation c ∧
        ∀ o ∈ others, system.contention.Bars c o := by
  constructor
  · rintro ⟨hruns, hnone⟩
    -- One candidate answers for all partners: it holds each of them, or it bars it.
    obtain ⟨c, hc, hgranted⟩ := (h.runs_iff_granted ha).mp hruns
    refine ⟨c, hc, hgranted, fun o ho => ?_⟩
    rcases htied o ho with rfl | hpartner
    · exact absurd hruns (hnone a ho)
    · refine (h.workedOut.holds_partner hc hpartner).resolve_left fun hholds => hnone o ho ?_
      exact (h.runs_iff_granted (hothers o ho)).mpr ⟨c, hholds, hgranted⟩
  · rintro ⟨c, hc, hgranted, hbars⟩
    refine ⟨(h.runs_iff_granted ha).mpr ⟨c, hc, hgranted⟩, fun o ho => ?_⟩
    exact h.not_runs_of_bars hgranted (hbars o ho)

end Cycle

/-- The first transaction runs by a candidate that bars the second. -/
def System.Displaces (system : System) (valuation : Valuation) (t u : ActionId) : Prop :=
  ∃ c ∈ system.contention.holdersOf t, system.Granted valuation c ∧ system.contention.Bars c u

/-- **Simultaneous transactions run together unless one displaces the other.**  If a transaction
was declared to run with others, it runs without one of them exactly if it displaces that one, and
the other way round. -/
theorem simultaneous_run_iff {d₀ d₁ d : Declarations} (hd₀ : d₀.Declared) {a : ActionId}
    {others : List ActionId} (htie : (Declare.simultaneous a others).run.run d₀ = (.ok (), d₁))
    (hsteps : Declarations.Steps d₁ d) {system : System} (hfinish : d.finish .eager = .ok system)
    {stimulus : Stimulus} {valuation : Valuation}
    (heval : system.evaluate stimulus = .ok valuation) (ha : system.IsTransaction a)
    {o : ActionId} (ho : o ∈ others) (hother : system.IsTransaction o) :
    ((system.Runs valuation a ∧ ¬ system.Runs valuation o) ↔ system.Displaces valuation a o) ∧
      ((system.Runs valuation o ∧ ¬ system.Runs valuation a) ↔
        system.Displaces valuation o a) := by
  obtain ⟨hsound₁, -, hdeclared⟩ := Declare.simultaneous_keeps a others hd₀.sound _ _ htie
  have hpair : (a, o) ∈ d.plan.couplings.simultaneous :=
    (hsteps.sound hsound₁).2.couplings.simultaneous (hdeclared () rfl o ho)
  have hd : d.Declared := (Declare.simultaneous_declares a others).declared_after hd₀ htie hsteps
  obtain ⟨reach, s, h⟩ := cycle_of_evaluate hd hfinish heval
  have htied : a = o ∨ o ∈ system.contention.slate.ties.partners a ∧
      a ∈ system.contention.slate.ties.partners o := by
    by_cases heq : a = o
    · exact .inl heq
    · exact .inr (h.mem_partners ha hother hpair heq)
  have hforth := h.runs_without_iff [o] ha (by simpa using hother)
    (by simpa using htied.imp_right And.left)
  have hback := h.runs_without_iff [a] hother (by simpa using ha)
    (by simpa using htied.imp Eq.symm And.right)
  simp only [List.mem_singleton, forall_eq] at hforth hback
  exact ⟨hforth, hback⟩

/-- A pump that runs with a valve or with a bypass, of which only the valve does not ask. -/
def pumpRoom : Declare Unit := do
  let go ← Declare.logic Build.high
  let opens ← Declare.logic (Build.input "opens" 1)
  let pump ← Declare.transaction "pump" none go
  let valve ← Declare.transaction "valve" none opens
  let bypass ← Declare.transaction "bypass" none go
  Declare.alternatives pump [valve, bypass]

theorem pumpRoom_declares : pumpRoom.Declares := by
  refine Declare.bind_declares (Declare.logic_declares Build.high_grows) fun go => ?_
  refine Declare.bind_declares (Declare.logic_declares (Build.input_grows _ _)) fun opens => ?_
  refine Declare.bind_declares (Declare.transaction_declares _ _ _) fun pump => ?_
  refine Declare.bind_declares (Declare.transaction_declares _ _ _) fun valve => ?_
  refine Declare.bind_declares (Declare.transaction_declares _ _ _) fun bypass => ?_
  exact Declare.alternatives_declares _ _

/-- The design before the valve is tied to the pump. -/
def beforeTie : Declarations := (pumpRoom.run.run .empty).2

/-- The design after that. -/
def afterTie : Declarations := ((Declare.simultaneous 0 [1]).run.run beforeTie).2

theorem tie_accepted : (Declare.simultaneous 0 [1]).run.run beforeTie = (.ok (), afterTie) := by
  refine Declare.run_of_isOk ?_
  decide +kernel

theorem tie_runs : ∃ system valuation, afterTie.finish .eager = .ok system ∧
    system.evaluate .empty = .ok valuation ∧ (∀ t ∈ [0, 1, 2], system.IsTransaction t) ∧
    system.runs valuation = [true, false, true] := by
  refine exists_runs ?_
  decide +kernel

theorem tied_run_iff : ∃ system valuation, afterTie.finish .eager = .ok system ∧
    system.evaluate .empty = .ok valuation ∧
    ((system.Runs valuation 0 ∧ ¬ system.Runs valuation 1) ↔ system.Displaces valuation 0 1) ∧
    ((system.Runs valuation 1 ∧ ¬ system.Runs valuation 0) ↔ system.Displaces valuation 1 0) := by
  obtain ⟨system, valuation, hfinish, heval, htransaction, -⟩ := tie_runs
  exact ⟨system, valuation, hfinish, heval,
    simultaneous_run_iff pumpRoom_declares.declared tie_accepted (.refl _) hfinish heval
      (htransaction 0 (by decide)) (List.mem_singleton_self 1) (htransaction 1 (by decide))⟩

/-- A transaction that displaces another runs without it, though they were declared to run
together. -/
theorem tied_run_apart : ∃ system valuation, beforeTie.Declared ∧
    (Declare.simultaneous 0 [1]).run.run beforeTie = (.ok (), afterTie) ∧
    afterTie.finish .eager = .ok system ∧ system.evaluate .empty = .ok valuation ∧
    system.IsTransaction 0 ∧ system.IsTransaction 1 ∧
    system.Runs valuation 0 ∧ ¬ system.Runs valuation 1 := by
  obtain ⟨system, valuation, hfinish, heval, htransaction, hruns⟩ := tie_runs
  refine ⟨system, valuation, pumpRoom_declares.declared, tie_accepted, hfinish, heval,
    htransaction 0 (by decide), htransaction 1 (by decide), ?_, ?_⟩
  · rw [system.runs_iff_getElem?, hruns]
    rfl
  · rw [system.runs_iff_getElem?, hruns]
    decide

/-- **An anchor runs without its alternatives only if its candidate bars them all.**  If
alternatives were offered to a transaction, it runs and none of them does exactly if it runs by a
candidate that holds, of each of them, another alternative. -/
theorem anchor_alone_iff {d₀ d₁ d : Declarations} (hd₀ : d₀.Declared) {a : ActionId}
    {others : List ActionId} (hoffer : (Declare.alternatives a others).run.run d₀ = (.ok (), d₁))
    (hsteps : Declarations.Steps d₁ d) {system : System} (hfinish : d.finish .eager = .ok system)
    {stimulus : Stimulus} {valuation : Valuation}
    (heval : system.evaluate stimulus = .ok valuation) (ha : system.IsTransaction a)
    (hothers : ∀ o ∈ others, system.IsTransaction o) :
    (system.Runs valuation a ∧ ∀ o ∈ others, ¬ system.Runs valuation o) ↔
      ∃ c ∈ system.contention.holdersOf a, system.Granted valuation c ∧
        ∀ o ∈ others, system.contention.Bars c o := by
  obtain ⟨hsound₁, -, hdeclared⟩ := Declare.alternatives_join a others hd₀.sound _ _ hoffer
  have hd : d.Declared := (Declare.alternatives_declares a others).declared_after hd₀ hoffer hsteps
  obtain ⟨reach, s, h⟩ := cycle_of_evaluate hd hfinish heval
  refine h.runs_without_iff others ha hothers fun o ho => ?_
  by_cases heq : a = o
  · exact .inl heq
  · have hpair : (a, o) ∈ d.plan.couplings.simultaneous :=
      (hsteps.sound hsound₁).2.couplings.simultaneous (hdeclared () rfl o ho)
    exact .inr (h.mem_partners ha (hothers o ho) hpair heq).1

/-- A reader that runs with a left, a right or a spare port, of which only the spare one asks. -/
def threePorts : Declare Unit := do
  let go ← Declare.logic Build.high
  let asks ← Declare.logic (Build.input "asks" 1)
  let reader ← Declare.transaction "reader" none go
  let left ← Declare.transaction "left" none asks
  let right ← Declare.transaction "right" none asks
  let spare ← Declare.transaction "spare" none go
  Declare.alternatives reader [left, right, spare]

theorem threePorts_declares : threePorts.Declares := by
  refine Declare.bind_declares (Declare.logic_declares Build.high_grows) fun go => ?_
  refine Declare.bind_declares (Declare.logic_declares (Build.input_grows _ _)) fun asks => ?_
  refine Declare.bind_declares (Declare.transaction_declares _ _ _) fun reader => ?_
  refine Declare.bind_declares (Declare.transaction_declares _ _ _) fun left => ?_
  refine Declare.bind_declares (Declare.transaction_declares _ _ _) fun right => ?_
  refine Declare.bind_declares (Declare.transaction_declares _ _ _) fun spare => ?_
  exact Declare.alternatives_declares _ _

/-- The design before the left and the right port are offered to the reader by themselves. -/
def beforeChoice : Declarations := (threePorts.run.run .empty).2

/-- The design after that. -/
def afterChoice : Declarations := ((Declare.alternatives 0 [1, 2]).run.run beforeChoice).2

theorem choice_accepted :
    (Declare.alternatives 0 [1, 2]).run.run beforeChoice = (.ok (), afterChoice) := by
  refine Declare.run_of_isOk ?_
  decide +kernel

theorem choice_runs : ∃ system valuation, afterChoice.finish .eager = .ok system ∧
    system.evaluate .empty = .ok valuation ∧ (∀ t ∈ [0, 1, 2, 3], system.IsTransaction t) ∧
    system.runs valuation = [true, false, false, true] := by
  refine exists_runs ?_
  decide +kernel

theorem chosen_alone_iff : ∃ system valuation, afterChoice.finish .eager = .ok system ∧
    system.evaluate .empty = .ok valuation ∧
    ((system.Runs valuation 0 ∧ ∀ o ∈ [1, 2], ¬ system.Runs valuation o) ↔
      ∃ c ∈ system.contention.holdersOf 0, system.Granted valuation c ∧
        ∀ o ∈ [1, 2], system.contention.Bars c o) := by
  obtain ⟨system, valuation, hfinish, heval, htransaction, -⟩ := choice_runs
  have hports : [1, 2] ⊆ [0, 1, 2, 3] := by decide
  exact ⟨system, valuation, hfinish, heval,
    anchor_alone_iff threePorts_declares.declared choice_accepted (.refl _) hfinish heval
      (htransaction 0 (by decide)) fun o ho => htransaction o (hports ho)⟩

/-- An anchor whose candidate bars all alternatives of an offer runs without any of them. -/
theorem anchor_runs_alone : ∃ system valuation, beforeChoice.Declared ∧
    (Declare.alternatives 0 [1, 2]).run.run beforeChoice = (.ok (), afterChoice) ∧
    afterChoice.finish .eager = .ok system ∧ system.evaluate .empty = .ok valuation ∧
    (∀ t ∈ [0, 1, 2], system.IsTransaction t) ∧
    system.Runs valuation 0 ∧ ∀ o ∈ [1, 2], ¬ system.Runs valuation o := by
  obtain ⟨system, valuation, hfinish, heval, htransaction, hruns⟩ := choice_runs
  have hsome : [0, 1, 2] ⊆ [0, 1, 2, 3] := by decide
  refine ⟨system, valuation, threePorts_declares.declared, choice_accepted, hfinish, heval,
    fun t ht => htransaction t (hsome ht), ?_, ?_⟩
  · rw [system.runs_iff_getElem?, hruns]
    rfl
  · intro o ho
    rw [system.runs_iff_getElem?, hruns]
    revert o
    decide

end Interlock
