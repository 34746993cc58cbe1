/-
Why a contention is refused.

Calls may run in a circle, actions that have to run together may have to run apart, a candidate may
exclude itself, and preferences may run in a circle.  In a plan whose calls are between its actions
nothing else is in the way: everything that is looked up on the way to the contention is there.
-/
import Interlock.Proofs.Contention.Arrangement
import Interlock.Proofs.Contention.CallPath
import Interlock.Proofs.Contention.Group

namespace Interlock

/-- The fault says why there is no contention. -/
inductive Fault.OfContention : Fault → Prop
  | callCycle (actions : List String) : OfContention (.callCycle actions)
  | unsatisfiableSimultaneity (first second : String) :
      OfContention (.unsatisfiableSimultaneity first second)
  | selfConflict (candidate : String) (chain : List Involvement) :
      OfContention (.selfConflict candidate chain)
  | priorityCycle (candidates : List String) : OfContention (.priorityCycle candidates)

/-! ### What may be refused -/

variable {plan : Plan} {reach : Reach} {slate : Slate} {fault : Fault}

/-- The calls of a plan that are between its actions are refused only for a circle. -/
theorem Reach.ofPlan_eq_error (hbetween : plan.calls.Between plan.roster.size)
    (h : Reach.ofPlan plan = .error fault) : ∃ actions, fault = .callCycle actions := by
  rw [Reach.ofPlan_eq hbetween] at h
  split at h
  · cases h
    exact ⟨_, rfl⟩
  · cases h

theorem Slate.ofReach_eq_error (h : Slate.ofReach reach = .error fault) :
    ∃ first second, fault = .unsatisfiableSimultaneity first second := by
  rcases bind_eq_error_iff.mp h with hties | ⟨ties, -, hpure⟩
  · unfold Reach.ties at hties
    dsimp only at hties
    split at hties
    · cases hties
      exact ⟨_, _, rfl⟩
    · cases hties
  · cases hpure

theorem Slate.of_doubleUse?_eq_some {method : ActionId × Action} {candidate : Candidate}
    (h : slate.doubleUse? method candidate = some fault) :
    ∃ name chain, fault = .selfConflict name chain := by
  unfold Slate.doubleUse? at h
  dsimp only at h
  split at h
  · cases h
    exact ⟨_, _, rfl⟩
  · cases h

theorem Slate.of_bothEnds?_eq_some {relation : Relation}
    (h : slate.bothEnds? relation = some fault) :
    ∃ name chain, fault = .selfConflict name chain := by
  unfold Slate.bothEnds? at h
  dsimp only at h
  split at h
  · cases h
  · obtain ⟨candidate, -, rfl⟩ := Option.map_eq_some_iff.mp h
    exact ⟨_, _, rfl⟩

theorem Slate.of_selfConflict?_eq_some (h : slate.selfConflict? = some fault) :
    ∃ name chain, fault = .selfConflict name chain := by
  unfold Slate.selfConflict? at h
  dsimp only at h
  split at h
  · rename_i hdoubled
    cases h
    obtain ⟨method, -, hmethod⟩ := List.exists_of_findSome?_eq_some hdoubled
    obtain ⟨candidate, -, hcandidate⟩ := List.exists_of_findSome?_eq_some hmethod
    exact of_doubleUse?_eq_some hcandidate
  · obtain ⟨relation, -, hrelation⟩ := List.exists_of_findSome?_eq_some h
    exact of_bothEnds?_eq_some hrelation

/-- **A contention is refused for a circle of calls, for actions that can neither run together nor
apart, for a candidate that excludes itself, or for a circle of preferences.** -/
theorem Contention.ofPlan_eq_error (hbetween : plan.calls.Between plan.roster.size)
    (h : Contention.ofPlan plan = .error fault) : fault.OfContention := by
  rcases bind_eq_error_iff.mp h with hreach | ⟨reach, -, h⟩
  · obtain ⟨actions, rfl⟩ := Reach.ofPlan_eq_error hbetween hreach
    exact .callCycle actions
  rcases bind_eq_error_iff.mp h with hslate | ⟨slate, -, h⟩
  · obtain ⟨first, second, rfl⟩ := Slate.ofReach_eq_error hslate
    exact .unsatisfiableSimultaneity first second
  split at h
  · rename_i hself
    cases h
    obtain ⟨name, chain, rfl⟩ := Slate.of_selfConflict?_eq_some hself
    exact .selfConflict name chain
  · split at h
    · cases h
      exact .priorityCycle _
    · cases h

/-! ### What is looked up -/

/-- Every number by which a slate refers to something is a number of something. -/
structure Slate.InRange (slate : Slate) : Prop where
  nonempty : ∀ candidate ∈ slate.candidates, candidate.members ≠ []
  members : ∀ candidate ∈ slate.candidates, ∀ t ∈ candidate.members,
    t < slate.plan.roster.size
  paths : ∀ candidate ∈ slate.candidates, ∀ path ∈ candidate.paths,
    path.method < slate.plan.roster.size ∧ ∀ id ∈ path.sites, id < slate.plan.calls.size
  apart : ∀ x y, (x, y) ∈ slate.ties.apart →
    x < slate.plan.roster.size ∧ y < slate.plan.roster.size
  holders : ∀ a, ∀ c ∈ slate.holdersOf a, c < slate.size
  users : ∀ a, ∀ c ∈ slate.usersOf a, c < slate.size
  clashes : ∀ clash ∈ slate.clashes, clash.edge.1 < slate.size ∧ clash.edge.2 < slate.size
  priorities : Precedence.Within slate.size slate.priorities

/-- The call sites on a chain are there, and so is the method at its end. -/
theorem Calls.Leads.in_range {calls : Calls} {actions : Nat} (hbetween : calls.Between actions)
    {a m : ActionId} {ids : List CallId} (h : calls.Leads a ids m) :
    m < actions ∧ ∀ id ∈ ids, id < calls.size := by
  induction h with
  | last hsite =>
      refine ⟨(hbetween _ _ hsite).2, List.forall_mem_singleton.mpr ?_⟩
      exact (Array.getElem?_eq_some_iff.mp hsite).1
  | step hsite _ ih =>
      exact ⟨ih.1, List.forall_mem_cons.mpr ⟨(Array.getElem?_eq_some_iff.mp hsite).1, ih.2⟩⟩

theorem ordered_lt {a b n : Nat} (ha : a < n) (hb : b < n) :
    (ordered a b).1 < n ∧ (ordered a b).2 < n := by
  rcases ordered_or a b with h | h
  · rw [h]
    exact ⟨ha, hb⟩
  · rw [h]
    exact ⟨hb, ha⟩

namespace Slate

theorem lt_of_mem_clashesBetween {reason : Reason} {these those : List Nat} {clash : Clash} {n : Nat}
    (hthese : ∀ c ∈ these, c < n) (hthose : ∀ c ∈ those, c < n)
    (h : clash ∈ clashesBetween reason these those) : clash.edge.1 < n ∧ clash.edge.2 < n := by
  obtain ⟨c, hc, d, hd, -, rfl⟩ := mem_clashesBetween.mp h
  exact ordered_lt (hthese c hc) (hthose d hd)

theorem lt_of_mem_clashesAmong {reason : Reason} {these : List Nat} {clash : Clash} {n : Nat}
    (hthese : ∀ c ∈ these, c < n) (h : clash ∈ clashesAmong reason these) :
    clash.edge.1 < n ∧ clash.edge.2 < n := by
  obtain ⟨⟨c, d⟩, hcd, rfl⟩ := List.mem_map.mp h
  obtain ⟨hc, hd⟩ := mem_of_mem_pairs hcd
  exact ordered_lt (hthese c hc) (hthese d hd)

theorem lt_of_mem_clashes {clash : Clash} (h : clash ∈ slate.clashes) :
    clash.edge.1 < slate.size ∧ clash.edge.2 < slate.size := by
  have hholders : ∀ a, ∀ c ∈ slate.holdersOf a, c < slate.size := fun _ _ => lt_of_mem_holdersOf
  have husers : ∀ a, ∀ c ∈ slate.usersOf a, c < slate.size := fun _ _ => lt_of_mem_usersOf
  rcases mem_clashes.mp h with h | h | h | h
  · obtain ⟨entry, -, h⟩ := List.mem_flatMap.mp h
    exact lt_of_mem_clashesAmong (hholders _) h
  · obtain ⟨pair, -, h⟩ := List.mem_flatMap.mp h
    exact lt_of_mem_clashesBetween (hholders _) (hholders _) h
  · obtain ⟨entry, -, h⟩ := List.mem_flatMap.mp h
    exact lt_of_mem_clashesAmong (husers _) h
  · obtain ⟨relation, -, h⟩ := List.mem_flatMap.mp h
    exact lt_of_mem_clashesBetween (husers _) (husers _) h

/-- **Everything that a slate refers to is there.** -/
theorem ofReach_inRange (h : Reach.Followed plan reach) (hslate : Slate.ofReach reach = .ok slate) :
    slate.InRange := by
  obtain ⟨ties, hties, hpure⟩ := bind_eq_ok_iff.mp hslate
  cases hpure
  obtain rfl := h.plan_eq
  have hmembers := Reach.candidates_members hties
  have hlt : ∀ t ∈ reach.plan.roster.transactions.map Prod.fst, t < reach.plan.roster.size := by
    intro t ht
    obtain ⟨⟨_, action⟩, haction, rfl⟩ := List.mem_map.mp ht
    exact Roster.lt_of_mem_transactions haction
  refine ⟨fun candidate hcandidate => ?_, fun candidate hcandidate t ht => ?_,
    fun candidate hcandidate path hpath => ?_, fun x y hxy => ?_, fun _ _ => lt_of_mem_holdersOf,
    fun _ _ => lt_of_mem_usersOf, fun _ => lt_of_mem_clashes, priorities_within⟩
  · obtain ⟨members, hunit, rfl⟩ := List.mem_map.mp hcandidate
    refine Ties.units_induction (P := (· ≠ [])) (fun group next _ _ => ?_) (fun _ _ _ => by simp)
      (fun _ _ => by simp) members hunit
    exact List.ne_nil_of_mem ((mem_insertAscending natLt_separating).mpr (.inl rfl))
  · exact hlt t (hmembers candidate hcandidate t ht)
  · rw [Reach.candidates_paths hcandidate] at hpath
    obtain ⟨t, -, hpath⟩ := List.mem_flatMap.mp hpath
    exact (h.mem_pathsOf.mp hpath).in_range h.between
  · obtain ⟨hx, hy⟩ := Reach.mem_transactions_of_mem_apart hties hxy
    exact ⟨hlt x hx, hlt y hy⟩

end Slate

end Interlock
