/-
What makes a candidate runnable, path by path.

Whether a candidate could run is worked out down the calls, once for every action, while the call
paths of a candidate are followed when its plan is.  Both speak about the same chains of calls: a
candidate could run exactly if its members are ready, and at the end of every one of its paths that
is enabled from first to last, the method is ready and does not refuse the arguments of the last
call.  A path through a call site that is not enabled asks for nothing, whatever is below.

The policy has no say in this, however many grants it answers.
-/
import Interlock.Proofs.System.Vetting

namespace Interlock

namespace System

variable (system : System) (valuation : Valuation) (verdict : CallId → NodeId)

/-- All call sites on the path are enabled in the cycle. -/
def Opens (path : CallPath) : Prop := ∀ id ∈ path.sites, system.Enables valuation id

/-- The method at the end of the path is ready and, if it has a validator, the verdict on the last
call of the path is high. -/
def Admits (path : CallPath) : Prop :=
  system.Ready valuation path.method ∧
    ∀ method, system.roster.actions[path.method]? = some method →
      method.validator?.isSome = true →
        ∀ id, path.sites.getLast? = some id → valuation.bit (verdict id) = true

/-- What decides in a cycle whether candidates could run. -/
structure DecidedByPaths : Prop where
  /-- A candidate could run exactly if its members are ready and its open paths admitted. -/
  runnable_iff : ∀ c candidate, system.contention.candidates[c]? = some candidate →
    (system.Runnable valuation c ↔ (∀ t ∈ candidate.members, system.Ready valuation t) ∧
      ∀ path ∈ candidate.paths, system.Opens valuation path →
        system.Admits valuation verdict path)
  /-- Paths through a call site that is not enabled do not count. -/
  disabled : ∀ c candidate, system.contention.candidates[c]? = some candidate →
    ∀ id, ¬ system.Enables valuation id →
      (system.Runnable valuation c ↔ (∀ t ∈ candidate.members, system.Ready valuation t) ∧
        ∀ path ∈ candidate.paths, id ∉ path.sites → system.Opens valuation path →
          system.Admits valuation verdict path)

end System

namespace Evaluated

variable {d : Declarations} {policy : Policy} {system : System} {valuation : Valuation}
  {reach : Reach} {s : Settled} {verdict : CallId → NodeId}
  (h : Evaluated d policy system valuation reach s)
include h

/-- A chain of calls is open if the enables on it are high. -/
theorem opens_iff {t : ActionId} {path : CallPath}
    (hleads : d.plan.calls.Leads t path.sites path.method) : system.Opens valuation path ↔
      ∀ id ∈ path.sites, ∀ site, d.plan.calls.sites[id]? = some site →
        s.bit site.enable = true := by
  refine ⟨h.enabled_of_enables, fun henabled id hid => ?_⟩
  obtain ⟨site, hsite⟩ := hleads.exists_site id hid
  exact (h.enables_iff hsite).mpr (henabled id hid site hsite)

/-- A chain of calls is admitted if the last call of it is taken. -/
theorem admits_iff {t : ActionId} {path : CallPath}
    (hleads : d.plan.calls.Leads t path.sites path.method) {id : CallId} {site : CallSite}
    (hlast : path.sites.getLast? = some id) (hsite : d.plan.calls.sites[id]? = some site) :
    system.Admits valuation verdict path ↔ Wiring.Takes s d.plan site (verdict id) := by
  obtain ⟨method, hmethod, -⟩ := (h.sound.sites id site hsite).callee
  have hcallee := hleads.callee_eq hlast hsite
  rw [hcallee] at hmethod
  unfold System.Admits Wiring.Takes
  rw [h.roster_eq, h.ready_iff hmethod, hcallee]
  simp [hmethod, hlast, h.bit_eq]

/-- The calls of an action are accepted if its open paths are admitted. -/
theorem accepts_iff {t : ActionId} : Wiring.Accepts s d.plan verdict t ↔
    ∀ path ∈ reach.pathsOf t, system.Opens valuation path →
      system.Admits valuation verdict path := by
  refine ⟨fun haccepts path hpath hopens => ?_, fun hall ids m hleads henables => ?_⟩
  · have hleads := h.followed.mem_pathsOf.mp hpath
    have hlast := List.getLast?_eq_some_getLast hleads.ne_nil
    obtain ⟨site, hsite⟩ := hleads.exists_site _ (List.getLast_mem hleads.ne_nil)
    exact (h.admits_iff hleads hlast hsite).mpr
      (haccepts _ _ hleads ((h.opens_iff hleads).mp hopens) _ site hlast hsite)
  · intro id site hlast hsite
    have hpath : (⟨m, ids⟩ : CallPath) ∈ reach.pathsOf t := h.followed.mem_pathsOf.mpr hleads
    have hopens : system.Opens valuation ⟨m, ids⟩ := (h.opens_iff hleads).mpr henables
    exact (h.admits_iff hleads hlast hsite).mp (hall _ hpath hopens)

/-- A candidate could run if its members are ready and its open paths are admitted. -/
theorem runnable_iff_admits
    (hverdict : Wiring.Decides s d.plan system.contention system.wiring.runnable verdict) {c : Nat}
    {candidate : Candidate} (hcandidate : system.contention.candidates[c]? = some candidate) :
    system.Runnable valuation c ↔ (∀ t ∈ candidate.members, system.Ready valuation t) ∧
      ∀ path ∈ candidate.paths, system.Opens valuation path →
        system.Admits valuation verdict path := by
  have hmem : candidate ∈ reach.candidates system.contention.slate.ties :=
    h.workedOut.candidates_eq ▸ List.mem_of_getElem? hcandidate
  rw [h.runnable_iff_accepts hverdict hcandidate, Reach.candidates_paths hmem,
    List.forall_mem_flatMap]
  simp only [h.accepts_iff]
  exact forall₂_and

end Evaluated

/-- **A candidate could run exactly if its members are ready and its enabled paths are taken.**
However a design was declared, and whatever policy it was finished with, its validators were asked
for verdicts once, and these decide in every cycle: at the end of every path of the candidate whose
call sites are all enabled, the method has to be ready, and the verdict on the last call high.  A
call site that is not enabled stands in the way of nothing, nor does what is below it. -/
theorem runnable_decided {d : Declarations} (hd : d.Declared) {policy : Policy}
    (hgrows : ∀ contention runnable, (policy.grants contention runnable).Grows) {system : System}
    (hfinish : d.finish policy = .ok system) :
    ∃ verdict, system.Asked verdict d ∧ ∀ stimulus valuation,
      system.evaluate stimulus = .ok valuation → system.DecidedByPaths valuation verdict := by
  obtain ⟨verdict, hasked, hdecides⟩ := exists_evaluated_decides hd hgrows hfinish
  refine ⟨verdict, hasked, fun stimulus valuation heval => ?_⟩
  obtain ⟨reach, s, h, hverdict⟩ := hdecides stimulus valuation heval
  refine ⟨fun c candidate hcandidate => h.runnable_iff_admits hverdict hcandidate,
    fun c candidate hcandidate id hid => ?_⟩
  rw [h.runnable_iff_admits hverdict hcandidate]
  refine and_congr_right fun _ => forall_congr' fun path => forall_congr' fun _ => ?_
  refine ⟨fun hadmits _ => hadmits, fun hadmits hopens => ?_⟩
  exact hadmits (fun hmem => hid (hopens id hmem)) hopens

/-- The relay does not call the store, so the worker could run whatever the store makes of the
item. -/
theorem pickyStore_decided : ∃ system verdict valuation,
    (pickyStore.run.run .empty).2.finish .eager = .ok system ∧
      system.Asked verdict (pickyStore.run.run .empty).2 ∧
      system.evaluate (Stimulus.empty.set 1 0) = .ok valuation ∧
      system.DecidedByPaths valuation verdict ∧ ¬ system.Enables valuation 1 ∧
      system.Runnable valuation 0 := by
  have hpasses : (pickyStore.run.run .empty).2.passes (Stimulus.empty.set 1 0)
      (fun system valuation => system.wiring.runnable.map valuation.bit == [true] &&
        (system.calls.sites[1]?.map fun site => valuation.bit site.enable) == some false) =
      true := by
    decide +kernel
  obtain ⟨system, valuation, hfinish, heval, hcheck⟩ := exists_of_passes hpasses
  obtain ⟨hrunnable, hdisabled⟩ := Bool.and_eq_true_iff.mp hcheck
  obtain ⟨verdict, hasked, hdecided⟩ :=
    runnable_decided pickyStore_declares.declared Policy.eager_serves.grows hfinish
  refine ⟨system, verdict, valuation, hfinish, hasked, heval, hdecided _ valuation heval, ?_, ?_⟩
  · intro henables
    obtain ⟨site, hsite, henabled⟩ := henables
    rw [hsite, Option.map_some, henabled] at hdisabled
    cases hdisabled
  · rw [System.runnable_iff_getElem?, eq_of_beq hrunnable]
    rfl

end Interlock
