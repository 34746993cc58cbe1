/-
A preferred candidate does not yield to the one it is preferred to.

A preference between two actions becomes a priority between every two different candidates that
take part in them, and priorities go forward in the order in which candidates are considered.  So
the preferred candidate is considered first, and the grant of the other one cannot be what holds it
back: if it could run and does not, then for the sake of a third one that comes before both.
-/
import Interlock.Proofs.Contention.Arrangement
import Interlock.Proofs.System.Running

namespace Interlock

/-- The relation prefers the first action over the second. -/
def Relation.Prefers (relation : Relation) (winner loser : ActionId) : Prop :=
  relation.priority = .left ∧ relation.start = winner ∧ relation.finish = loser ∨
    relation.priority = .right ∧ relation.finish = winner ∧ relation.start = loser

theorem Relation.preference?_eq_some_iff {relation : Relation} {winner loser : ActionId} :
    relation.preference? = some (winner, loser) ↔ relation.Prefers winner loser := by
  unfold preference? Prefers
  cases relation.priority <;> simp

namespace System

variable {system : System} {valuation : Valuation} {c : Nat}

/-- The candidate could run in the cycle. -/
def Runnable (system : System) (valuation : Valuation) (c : Nat) : Prop :=
  ∃ node, system.wiring.runnable[c]? = some node ∧ valuation.bit node = true

theorem runnable_iff_getElem? : system.Runnable valuation c ↔
    (system.wiring.runnable.map valuation.bit)[c]? = some true := by
  simp [Runnable, Option.map_eq_some_iff]

theorem granted_iff_getElem? : system.Granted valuation c ↔
    (system.wiring.grants.map valuation.bit)[c]? = some true := by
  simp [Granted, Option.map_eq_some_iff]

end System

namespace Contention

variable {reach : Reach} {contention : Contention}

/-- Every priority goes forward in the order of a contention. -/
theorem precedes_of_mem_priorities (h : ofReach reach = .ok contention) {c d : Nat}
    (hcd : (c, d) ∈ contention.slate.priorities) : contention.Precedes c d := by
  obtain ⟨slate, hslate, -⟩ := bind_eq_ok_iff.mp h
  obtain ⟨rfl, -, harrange⟩ := of_ofReach_eq_ok hslate h
  exact (Precedence.arrange_isFirst Slate.priorities_within harrange).follows.forward c d hcd

end Contention

namespace Cycle

variable {d : Declarations} {system : System} {valuation : Valuation} {reach : Reach} {s : Settled}
  (h : Cycle d .eager system valuation reach s)
include h

theorem slate_plan_eq : system.contention.slate.plan = d.plan := by
  rw [Slate.plan, h.workedOut.reach_eq, h.followed.plan_eq]

theorem mem_usersOf_iff_involves {c : Nat} {a : ActionId} :
    c ∈ system.contention.usersOf a ↔ system.contention.slate.Involves c a :=
  Slate.mem_usersOf_iff h.workedOut.drawn (h.slate_plan_eq ▸ h.followed)

theorem bit_of_runnable {c : Nat} (hc : system.Runnable valuation c) :
    s.bit (system.wiring.runnable.getD c 0) = true := by
  obtain ⟨node, hnode, hbit⟩ := hc
  rw [List.getD_eq_getElem?_getD, hnode, ← h.bit_eq]
  exact hbit

/-- Rivals are not granted in one cycle. -/
theorem not_granted_of_inConflict {c c' : Nat} (hconflict : system.contention.inConflict c c' = true)
    (hc' : system.Granted valuation c') : ¬ system.Granted valuation c := by
  intro hc
  have hlt := h.lt_of_granted hc
  have hlt' := h.lt_of_granted hc'
  have hfree := h.arbitrates.free c hlt c' hlt' ((h.granted_iff hlt).mp hc)
    ((h.granted_iff hlt').mp hc')
  rw [hconflict] at hfree
  cases hfree

/-- A candidate that could run and is not granted has an earlier rival that is. -/
theorem exists_rival {c : Nat} (hlt : c < system.contention.size)
    (hrunnable : system.Runnable valuation c) (hnot : ¬ system.Granted valuation c) :
    ∃ rival, system.Granted valuation rival ∧ system.contention.Precedes rival c ∧
      system.contention.inConflict rival c = true := by
  obtain ⟨rival, hrival, hgrant, hbefore, hconflict⟩ := h.arbitrates.maximal c hlt
    (h.bit_of_runnable hrunnable) (fun hgrant => hnot ((h.granted_iff hlt).mpr hgrant))
  exact ⟨rival, (h.granted_iff hrival).mpr hgrant, hbefore, hconflict⟩

end Cycle

/-- **A declared preference is honoured in every cycle.**  Of two conflicting candidates that take
part in the two actions, the preferred one is considered first.  If it could run while the other
one is granted, it is not granted, and only because a third one is that comes before it. -/
theorem preference_honoured {d : Declarations} (hd : d.Declared) {system : System}
    (hfinish : d.finish .eager = .ok system) {stimulus : Stimulus} {valuation : Valuation}
    (heval : system.evaluate stimulus = .ok valuation) {relation : Relation}
    (hrelation : relation ∈ d.plan.couplings.relations) {winner loser : ActionId}
    (hprefers : relation.Prefers winner loser) {c c' : Nat}
    (hc : system.contention.slate.Involves c winner)
    (hc' : system.contention.slate.Involves c' loser) (hne : c ≠ c')
    (hconflict : system.contention.inConflict c c' = true)
    (hrunnable : system.Runnable valuation c) (hgranted : system.Granted valuation c') :
    system.contention.Precedes c c' ∧ ¬ system.Granted valuation c ∧
      ∃ rival, rival ≠ c' ∧ system.Granted valuation rival ∧
        system.contention.inConflict rival c = true ∧ system.contention.Precedes rival c := by
  obtain ⟨reach, s, h⟩ := cycle_of_evaluate hd hfinish heval
  obtain ⟨reach', -, hcontention⟩ := (finish_finished hfinish).contention_eq
  have hpriority : (c, c') ∈ system.contention.slate.priorities :=
    Slate.mem_priorities.mpr ⟨relation, h.slate_plan_eq ▸ hrelation, winner, loser,
      Relation.preference?_eq_some_iff.mpr hprefers, h.mem_usersOf_iff_involves.mpr hc,
      h.mem_usersOf_iff_involves.mpr hc', hne.symm⟩
  have hbefore := Contention.precedes_of_mem_priorities hcontention hpriority
  have hnot := h.not_granted_of_inConflict hconflict hgranted
  have hlt : c < system.contention.size := (Slate.priorities_within c c' hpriority).1
  obtain ⟨rival, hrival, hearlier, hrivals⟩ := h.exists_rival hlt hrunnable hnot
  refine ⟨hbefore, hnot, rival, ?_, hrival, hrivals, hearlier⟩
  intro heq
  have hnodup := h.workedOut.order_nodup
  exact Precedence.not_before_self hnodup c
    (Precedence.Before.trans hnodup hbefore (heq ▸ hearlier))

/-- A memory whose port is preferred to scrubbing, while refreshing is preferred to writing by way
of the port. -/
def memory : Declare Unit := do
  let go ← Declare.logic Build.high
  let scrub ← Declare.transaction "scrub" none go
  let write ← Declare.transaction "write" none go
  let refresh ← Declare.transaction "refresh" none go
  let port ← Declare.method { name := "port" }
  let _ ← Declare.call write port.action go .empty
  Declare.conflict scrub port.action .right
  Declare.conflict write refresh .right

theorem memory_declares : memory.Declares := by
  refine Declare.bind_declares (Declare.logic_declares Build.high_grows) fun go => ?_
  refine Declare.bind_declares (Declare.transaction_declares _ _ _) fun scrub => ?_
  refine Declare.bind_declares (Declare.transaction_declares _ _ _) fun write => ?_
  refine Declare.bind_declares (Declare.transaction_declares _ _ _) fun refresh => ?_
  refine Declare.bind_declares (Declare.method_declares nofun nofun) fun port => ?_
  refine Declare.bind_declares (Declare.call_declares _ _ _ _) fun _ => ?_
  refine Declare.bind_declares (Declare.conflict_declares _ _ _) fun _ => ?_
  exact Declare.conflict_declares _ _ _

/-- Scrubbing runs although writing is preferred, for writing yields to refreshing. -/
theorem memory_honours : ∃ system valuation,
    (memory.run.run .empty).2.finish .eager = .ok system ∧
      system.evaluate .empty = .ok valuation ∧
      system.Runnable valuation 1 ∧ system.Granted valuation 0 ∧
      system.contention.Precedes 1 0 ∧ ¬ system.Granted valuation 1 ∧
      ∃ rival, rival ≠ 0 ∧ system.Granted valuation rival ∧
        system.contention.inConflict rival 1 = true ∧ system.contention.Precedes rival 1 := by
  have hpasses : (memory.run.run .empty).2.passes .empty (fun system valuation =>
      system.contention.usersOf 3 == [1] && system.contention.usersOf 0 == [0] &&
        system.contention.inConflict 1 0 &&
        system.wiring.runnable.map valuation.bit == [true, true, true] &&
        system.wiring.grants.map valuation.bit == [true, false, true]) = true := by
    decide +kernel
  obtain ⟨system, valuation, hfinish, heval, hfound⟩ := exists_of_passes hpasses
  simp only [Bool.and_eq_true, beq_iff_eq] at hfound
  obtain ⟨⟨⟨⟨hport, hscrub⟩, hconflict⟩, hrunnable⟩, hgrants⟩ := hfound
  have hrelation : Relation.conflict 0 3 .right ∈
      (memory.run.run .empty).2.plan.couplings.relations := by
    decide +kernel
  obtain ⟨reach, s, h⟩ := cycle_of_evaluate memory_declares.declared hfinish heval
  have hwriter : system.contention.slate.Involves 1 3 :=
    h.mem_usersOf_iff_involves.mp (by rw [hport]; exact List.mem_singleton_self 1)
  have hscrubber : system.contention.slate.Involves 0 0 :=
    h.mem_usersOf_iff_involves.mp (by rw [hscrub]; exact List.mem_singleton_self 0)
  have hwrites : system.Runnable valuation 1 :=
    System.runnable_iff_getElem?.mpr (by rw [hrunnable]; rfl)
  have hscrubs : system.Granted valuation 0 :=
    System.granted_iff_getElem?.mpr (by rw [hgrants]; rfl)
  exact ⟨system, valuation, hfinish, heval, hwrites, hscrubs,
    preference_honoured memory_declares.declared hfinish heval hrelation (.inr ⟨rfl, rfl, rfl⟩)
      hwriter hscrubber (by decide) hconflict hwrites hscrubs⟩

end Interlock
