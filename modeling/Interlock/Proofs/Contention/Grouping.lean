/-
The candidates of a plan are its maximal groups.

A declared pair of actions speaks about every two different transactions that stand for them, one
for each.  So simultaneity and independence become relations between transactions, the ties of the
plan are just these relations, and what holds of groups under any ties holds of the candidates:
they are the maximal groups and the transactions without a partner, each listed once, in the order
of their members.
-/
import Interlock.Proofs.Contention.CallPath
import Interlock.Proofs.Contention.Conflict
import Interlock.Proofs.Contention.Linked

namespace Interlock

namespace Reach

variable {reach : Reach} {ties : Ties}

theorem Followed.carries_iff {plan : Plan} (h : Followed plan reach) {t a : ActionId} :
    reach.Carries t a ↔ t = a ∨ ∃ ids, plan.calls.Leads t ids a := by
  unfold Carries
  refine or_congr_right ⟨fun hpath => ?_, fun hleads => ?_⟩
  · obtain ⟨path, hmem, rfl⟩ := hpath
    exact ⟨path.sites, h.mem_pathsOf.mp hmem⟩
  · obtain ⟨ids, hids⟩ := hleads
    exact ⟨⟨a, ids⟩, h.mem_pathsOf.mpr hids, rfl⟩

/-- Different transactions that stand for the two actions of a declared pair, one for each. -/
def Projected (reach : Reach) (declared : List (ActionId × ActionId)) (x y : ActionId) : Prop :=
  x ≠ y ∧ ∃ a b, (a, b) ∈ declared ∧
    (x ∈ reach.standsFor a ∧ y ∈ reach.standsFor b ∨ y ∈ reach.standsFor a ∧ x ∈ reach.standsFor b)

/-- The two transactions run together by what was declared. -/
def Tied (reach : Reach) : ActionId → ActionId → Prop :=
  reach.Projected reach.plan.couplings.simultaneous

/-- The two transactions are alternatives by what was declared. -/
def KeptApart (reach : Reach) : ActionId → ActionId → Prop :=
  reach.Projected reach.plan.couplings.independent

theorem projected_iff {declared : List (ActionId × ActionId)} {x y : ActionId} :
    reach.Projected declared x y ↔ ∃ a b, (a, b) ∈ declared ∧ ordered x y ∈ reach.project a b := by
  unfold Projected
  rw [← exists_and_left]
  refine exists_congr fun a => ?_
  rw [← exists_and_left]
  refine exists_congr fun b => ?_
  rw [and_left_comm]
  refine and_congr_right fun _ => ?_
  rw [mem_project]
  constructor
  · intro hstands
    obtain ⟨hne, ⟨hx, hy⟩ | ⟨hy, hx⟩⟩ := hstands
    · exact ⟨x, hx, y, hy, hne.symm, rfl⟩
    · exact ⟨y, hy, x, hx, hne, ordered_comm y x⟩
  · intro hproject
    obtain ⟨u, hu, v, hv, hne, heq⟩ := hproject
    rcases ordered_eq_iff.mp heq with ⟨rfl, rfl⟩ | ⟨rfl, rfl⟩
    · exact ⟨hne.symm, .inl ⟨hu, hv⟩⟩
    · exact ⟨hne, .inr ⟨hu, hv⟩⟩

theorem projected_symm {declared : List (ActionId × ActionId)} {x y : ActionId}
    (h : reach.Projected declared x y) : reach.Projected declared y x := by
  rw [projected_iff] at h ⊢
  rwa [ordered_comm]

/-- The transactions run as one by what was declared. -/
def RunsAsOne (reach : Reach) : Finset ActionId → Prop :=
  Interlock.RunsAsOne reach.Tied reach.KeptApart (reach.plan.roster.transactions.map Prod.fst)

/-- Only transactions run as one. -/
theorem RunsAsOne.mem_transactions {members : Finset ActionId} (h : reach.RunsAsOne members)
    {t : ActionId} (ht : t ∈ members) : t ∈ reach.plan.roster.transactions.map Prod.fst := by
  rcases h with hgroup | ⟨only, honly, -, rfl⟩
  · obtain ⟨u, -, -, htied⟩ := hgroup.1.exists_partner ht
    obtain ⟨-, a, b, -, ⟨hstands, -⟩ | ⟨-, hstands⟩⟩ := htied
    · exact (mem_standsFor.mp hstands).1
    · exact (mem_standsFor.mp hstands).1
  · rw [Finset.mem_singleton.mp ht]
    exact honly

section Ties

variable (h : reach.ties = .ok ties)
include h

theorem tied_iff {x y : ActionId} : ties.Tied x y ↔ reach.Tied x y := by
  have hordered : ordered x y ∈ ties.together ↔ (x, y) ∈ ties.together ∨ (y, x) ∈ ties.together := by
    constructor
    · intro hmem
      rcases ordered_or x y with heq | heq
      · exact .inl (heq ▸ hmem)
      · exact .inr (heq ▸ hmem)
    · intro hmem
      rcases hmem with hxy | hyx
      · rwa [(ordered_of_mem_tied h hxy).1]
      · rwa [ordered_comm, (ordered_of_mem_tied h hyx).1]
  unfold Ties.Tied Reach.Tied
  rw [Ties.mem_partners, ← hordered, projected_iff, (ties_eq_ok h).1]
  exact mem_together

theorem keptApart_iff {x y : ActionId} : ties.KeptApart x y ↔ reach.KeptApart x y := by
  unfold Ties.KeptApart Reach.KeptApart Ties.separates
  rw [List.contains_iff_mem]
  constructor
  · intro hapart
    rw [projected_iff]
    rw [(ties_eq_ok h).1] at hapart
    exact mem_apart.mp hapart.2
  · intro hapart
    refine ⟨hapart.1, ?_⟩
    rw [(ties_eq_ok h).1]
    exact mem_apart.mpr (projected_iff.mp hapart)

/-- Transactions kept apart are listed with the smaller number first. -/
theorem mem_ties_apart_iff {x y : ActionId} :
    (x, y) ∈ ties.apart ↔ x < y ∧ reach.KeptApart x y := by
  rw [← keptApart_iff h]
  unfold Ties.KeptApart Ties.separates
  rw [List.contains_iff_mem]
  constructor
  · intro hmem
    obtain ⟨hordered, hne⟩ := ordered_of_mem_apart h hmem
    exact ⟨Nat.lt_of_le_of_ne (ordered_eq_self_iff.mp hordered) hne, hne, by rwa [hordered]⟩
  · intro hmem
    obtain ⟨hlt, -, hmem⟩ := hmem
    rwa [ordered_of_le (Nat.le_of_lt hlt)] at hmem

/-- What is tied are different transactions, none of them kept apart. -/
theorem ties_between : ties.Between (reach.plan.roster.transactions.map Prod.fst) where
  members := fun _ _ hxy => mem_transactions_of_mem_tied h hxy
  ascending := fun _ _ hxy =>
    let ⟨hordered, hne⟩ := ordered_of_mem_tied h hxy
    Nat.lt_of_le_of_ne (ordered_eq_self_iff.mp hordered) hne
  free := fun _ _ hxy => not_separates_of_mem_tied h hxy

theorem runsAsOne_iff {members : Finset ActionId} : Interlock.RunsAsOne ties.Tied ties.KeptApart
    (reach.plan.roster.transactions.map Prod.fst) members ↔ reach.RunsAsOne members := by
  have htied : ties.Tied = reach.Tied := by
    funext x y
    exact propext (tied_iff h)
  have hapart : ties.KeptApart = reach.KeptApart := by
    funext x y
    exact propext (keptApart_iff h)
  rw [htied, hapart, RunsAsOne]

theorem mem_candidates_iff {candidate : Candidate} : candidate ∈ reach.candidates ties ↔
    ∃ members, reach.RunsAsOne members ∧ reach.candidate members.sort = candidate := by
  unfold candidates
  rw [List.mem_map]
  constructor
  · intro hcandidate
    obtain ⟨unit, hunit, heq⟩ := hcandidate
    obtain ⟨members, hmembers, rfl⟩ := (Ties.mem_units_iff (ties_between h)).mp hunit
    exact ⟨members, (runsAsOne_iff h).mp hmembers, heq⟩
  · intro hcandidate
    obtain ⟨members, hmembers, heq⟩ := hcandidate
    refine ⟨members.sort, (Ties.mem_units_iff (ties_between h)).mpr ?_, heq⟩
    exact ⟨members, (runsAsOne_iff h).mpr hmembers, rfl⟩

/-- The members of a candidate are listed in order. -/
theorem exists_members {candidate : Candidate} (hcandidate : candidate ∈ reach.candidates ties) :
    ∃ members, reach.RunsAsOne members ∧ candidate.members = members.sort := by
  obtain ⟨members, hmembers, rfl⟩ := (mem_candidates_iff h).mp hcandidate
  exact ⟨members, hmembers, rfl⟩

theorem members_ascending {candidate : Candidate} (hcandidate : candidate ∈ reach.candidates ties) :
    candidate.members.Pairwise (· < ·) := by
  obtain ⟨members, -, heq⟩ := exists_members h hcandidate
  rw [heq]
  exact (Finset.sortedLT_sort members).pairwise

theorem exists_runsAsOne {t : ActionId} (ht : t ∈ reach.plan.roster.transactions.map Prod.fst) :
    ∃ members, reach.RunsAsOne members ∧ t ∈ members := by
  obtain ⟨members, hmembers, hmem⟩ := Ties.exists_runsAsOne (ties_between h) ht
  exact ⟨members, (runsAsOne_iff h).mp hmembers, hmem⟩

end Ties

theorem candidates_sorted (reach : Reach) (ties : Ties) :
    (reach.candidates ties).Pairwise fun c d => c.members < d.members := by
  unfold candidates Ties.units
  refine List.Pairwise.map _ (fun _ _ hlt => ?_) (ascending_pairwise (listLt_ranking natLt_ranking) _)
  exact listLt_natLt_iff.mp hlt

end Reach

/-! ### The candidates of a contention -/

namespace Contention

/-- What the candidates of a plan are. -/
structure Grouped (reach : Reach) (contention : Contention) : Prop where
  /-- A transaction stands for itself and for every method that calls lead to from it. -/
  stands : ∀ t a, t ∈ reach.standsFor a ↔ t ∈ reach.plan.roster.transactions.map Prod.fst ∧
    (t = a ∨ ∃ ids, reach.plan.calls.Leads t ids a)
  /-- Groups are grown until none is left to grow, and no further round would find more. -/
  ends : ∃ rounds, contention.slate.ties.enlarge^[rounds] contention.slate.ties.seeds = [] ∧
    ∀ more, contention.slate.ties.grow (rounds + more) contention.slate.ties.seeds =
      contention.slate.ties.groups (reach.plan.roster.transactions.map Prod.fst).length
  /-- They are the maximal groups and the transactions without a partner. -/
  sets : ∀ members : Finset ActionId,
    (∃ candidate ∈ contention.candidates, candidate.members.toFinset = members) ↔
      Maximal (IsGroup reach.Tied reach.KeptApart) members ∨
        ∃ t ∈ reach.plan.roster.transactions.map Prod.fst,
          (∀ u, ¬ reach.Tied t u) ∧ members = {t}
  covers : ∀ t ∈ reach.plan.roster.transactions.map Prod.fst,
    ∃ candidate ∈ contention.candidates, t ∈ candidate.members
  compatible : ∀ candidate ∈ contention.candidates, ∀ x ∈ candidate.members,
    ∀ y ∈ candidate.members, ¬ reach.KeptApart x y
  /-- None is part of another one. -/
  incomparable : ∀ (i j : Nat) (c d : Candidate), contention.candidates[i]? = some c →
    contention.candidates[j]? = some d → c.members ⊆ d.members → i = j
  ascending : ∀ candidate ∈ contention.candidates, candidate.members.Pairwise (· < ·)
  sorted : contention.candidates.Pairwise fun c d => c.members < d.members
  first : ∀ candidate ∈ contention.candidates, candidate.firstMember ∈ candidate.members ∧
    ∀ t ∈ candidate.members, candidate.firstMember ≤ t
  keys : contention.candidates.Pairwise fun c d => c.firstMember ≤ d.firstMember
  /-- Without alternatives they are the sets of all that hang together. -/
  components : (∀ x y, ¬ reach.KeptApart x y) → ∀ members : Finset ActionId,
    (∃ candidate ∈ contention.candidates, candidate.members.toFinset = members) ↔
      ∃ t ∈ reach.plan.roster.transactions.map Prod.fst,
        ∀ u, u ∈ members ↔ Relation.ReflTransGen reach.Tied t u

namespace WorkedOut

variable {reach : Reach} {contention : Contention} (h : WorkedOut reach contention)
include h

theorem mem_candidates {candidate : Candidate} : candidate ∈ contention.candidates ↔
    ∃ members, reach.RunsAsOne members ∧ reach.candidate members.sort = candidate := by
  unfold candidates
  rw [h.candidates_eq]
  exact Reach.mem_candidates_iff h.ties_eq

theorem exists_members {candidate : Candidate} (hcandidate : candidate ∈ contention.candidates) :
    ∃ members, reach.RunsAsOne members ∧ candidate.members = members.sort :=
  Reach.exists_members h.ties_eq (h.candidates_eq ▸ hcandidate)

theorem exists_candidate_iff {members : Finset ActionId} :
    (∃ candidate ∈ contention.candidates, candidate.members.toFinset = members) ↔
      reach.RunsAsOne members := by
  constructor
  · intro hsome
    obtain ⟨candidate, hcandidate, rfl⟩ := hsome
    obtain ⟨members, hmembers, heq⟩ := h.exists_members hcandidate
    rwa [heq, Finset.sort_toFinset]
  · intro hmembers
    exact ⟨_, h.mem_candidates.mpr ⟨members, hmembers, rfl⟩, Finset.sort_toFinset members _⟩

theorem candidates_sorted : contention.candidates.Pairwise fun c d => c.members < d.members := by
  unfold candidates
  rw [h.candidates_eq]
  exact Reach.candidates_sorted reach _

theorem members_ascending {candidate : Candidate}
    (hcandidate : candidate ∈ contention.candidates) : candidate.members.Pairwise (· < ·) :=
  Reach.members_ascending h.ties_eq (h.candidates_eq ▸ hcandidate)

theorem firstMember_spec {candidate : Candidate}
    (hcandidate : candidate ∈ contention.candidates) :
    ∃ rest, candidate.members = candidate.firstMember :: rest := by
  obtain ⟨members, hmembers, heq⟩ := h.exists_members hcandidate
  obtain ⟨t, ht⟩ := hmembers.nonempty
  have hmem : t ∈ candidate.members := by
    rw [heq]
    exact (Finset.mem_sort _).mpr ht
  unfold Candidate.firstMember
  cases hlist : candidate.members with
  | nil => simp [hlist] at hmem
  | cons first rest => exact ⟨rest, rfl⟩

/-- A candidate that is part of another one is that one. -/
theorem eq_of_members_subset {i j : Nat} {c d : Candidate} (hc : contention.candidates[i]? = some c)
    (hd : contention.candidates[j]? = some d) (hsub : c.members ⊆ d.members) : i = j := by
  obtain ⟨members, hmembers, heq⟩ := h.exists_members (List.mem_of_getElem? hc)
  obtain ⟨others, hothers, heq'⟩ := h.exists_members (List.mem_of_getElem? hd)
  have hsame : members = others := by
    refine hmembers.eq_of_subset hothers fun t ht => ?_
    rw [heq, heq'] at hsub
    exact (Finset.mem_sort _).mp (hsub ((Finset.mem_sort _).mpr ht))
  have hlists : c.members = d.members := by rw [heq, heq', hsame]
  obtain ⟨hi, rfl⟩ := List.getElem?_eq_some_iff.mp hc
  obtain ⟨hj, rfl⟩ := List.getElem?_eq_some_iff.mp hd
  rcases Nat.lt_trichotomy i j with hij | hij | hij
  · have hlt := List.pairwise_iff_getElem.mp h.candidates_sorted i j hi hj hij
    rw [hlists] at hlt
    exact absurd hlt (List.lt_irrefl _)
  · exact hij
  · have hlt := List.pairwise_iff_getElem.mp h.candidates_sorted j i hj hi hij
    rw [hlists] at hlt
    exact absurd hlt (List.lt_irrefl _)

/-- Without alternatives, who is in a candidate are all who hang together with a member. -/
theorem exists_candidate_iff_of_not_apart (hnone : ∀ x y, ¬ reach.KeptApart x y)
    {members : Finset ActionId} :
    (∃ candidate ∈ contention.candidates, candidate.members.toFinset = members) ↔
      ∃ t ∈ reach.plan.roster.transactions.map Prod.fst,
        ∀ u, u ∈ members ↔ Relation.ReflTransGen reach.Tied t u := by
  have hsymm : ∀ u v, reach.Tied u v → reach.Tied v u := fun _ _ => Reach.projected_symm
  rw [h.exists_candidate_iff]
  constructor
  · intro hmembers
    obtain ⟨t, ht⟩ := hmembers.nonempty
    exact ⟨t, hmembers.mem_transactions ht, fun u =>
      hmembers.mem_iff_of_not_apart hsymm hnone ht⟩
  · intro hcomponent
    obtain ⟨t, ht, hall⟩ := hcomponent
    obtain ⟨others, hothers, hmem⟩ := Reach.exists_runsAsOne h.ties_eq ht
    have hsame : others = members := by
      ext u
      rw [hothers.mem_iff_of_not_apart hsymm hnone hmem, hall u]
    rwa [← hsame]

end WorkedOut

/-- **The candidates of a plan are its maximal groups**, and the transactions without a partner,
in the order of their members. -/
theorem candidates_grouped {plan : Plan} {reach : Reach} (hreach : Reach.ofPlan plan = .ok reach)
    {contention : Contention} (hcontention : ofReach reach = .ok contention) :
    contention.Grouped reach := by
  have hfollowed := Reach.ofPlan_followed hreach
  have h := ofReach_workedOut hcontention
  have hbetween := Reach.ties_between h.ties_eq
  refine
    { stands := fun t a => by rw [Reach.mem_standsFor, hfollowed.carries_iff, hfollowed.plan_eq]
      ends := ⟨_, Ties.enlarge_seeds_eq_nil hbetween, Ties.grow_seeds_eq hbetween⟩
      sets := fun members => h.exists_candidate_iff
      covers := ?_
      compatible := ?_
      incomparable := fun i j c d hc hd hsub => h.eq_of_members_subset hc hd hsub
      ascending := fun candidate hcandidate => h.members_ascending hcandidate
      sorted := h.candidates_sorted
      first := ?_
      keys := ?_
      components := fun hnone members => h.exists_candidate_iff_of_not_apart hnone }
  · intro t ht
    obtain ⟨members, hmembers, hmem⟩ := Reach.exists_runsAsOne h.ties_eq ht
    exact ⟨_, h.mem_candidates.mpr ⟨members, hmembers, rfl⟩, (Finset.mem_sort _).mpr hmem⟩
  · intro candidate hcandidate x hx y hy
    obtain ⟨members, hmembers, heq⟩ := h.exists_members hcandidate
    rw [heq, Finset.mem_sort] at hx hy
    exact hmembers.compatible (fun _ hself => hself.1 rfl) x hx y hy
  · intro candidate hcandidate
    obtain ⟨rest, heq⟩ := h.firstMember_spec hcandidate
    have hascending := h.members_ascending hcandidate
    rw [heq, List.pairwise_cons] at hascending
    rw [heq]
    refine ⟨List.mem_cons_self .., fun t ht => ?_⟩
    rcases List.mem_cons.mp ht with rfl | ht
    · exact Nat.le_refl _
    · exact Nat.le_of_lt (hascending.1 t ht)
  · refine h.candidates_sorted.imp_of_mem fun {c d} hc hd hlt => ?_
    obtain ⟨rest, heq⟩ := h.firstMember_spec hc
    obtain ⟨rest', heq'⟩ := h.firstMember_spec hd
    rw [heq, heq', List.cons_lt_cons_iff] at hlt
    rcases hlt with hlt | ⟨hsame, -⟩
    · exact Nat.le_of_lt hlt
    · exact Nat.le_of_eq hsame

/-- Whether a contention is answered for the plan and passes a check. -/
def passes (plan : Plan) (check : Contention → Bool) : Bool :=
  (ofPlan plan).toOption.any check

theorem exists_of_passes {plan : Plan} {check : Contention → Bool}
    (h : passes plan check = true) : ∃ reach contention, Reach.ofPlan plan = .ok reach ∧
      ofReach reach = .ok contention ∧ check contention = true := by
  unfold passes at h
  cases hplan : ofPlan plan with
  | error fault =>
      rw [hplan] at h
      cases h
  | ok contention =>
      rw [hplan] at h
      obtain ⟨reach, hreach, hcontention⟩ := bind_eq_ok_iff.mp hplan
      exact ⟨reach, contention, hreach, hcontention, h⟩

/-- Transactions of the given names. -/
def crew (names : List String) : Roster :=
  ⟨(names.map fun name => ⟨name, name, none, 0, 0, .transaction⟩).toArray⟩

/-- A pump that runs with a valve or with a bypass, and a clock. -/
def pumpPlan : Plan where
  blocks := .empty
  roster := crew ["pump", "valve", "bypass", "clock"]
  calls := .empty
  couplings := ⟨[], [(0, 1), (0, 2)], [(1, 2)], []⟩

theorem pump_grouped : ∃ reach contention, Reach.ofPlan pumpPlan = .ok reach ∧
    ofReach reach = .ok contention ∧
    contention.candidates.map (·.members) = [[0, 1], [0, 2], [3]] ∧
    contention.Grouped reach := by
  have hpasses : passes pumpPlan (fun contention =>
      contention.candidates.map (·.members) == [[0, 1], [0, 2], [3]]) = true := by
    decide +kernel
  obtain ⟨reach, contention, hreach, hcontention, hmembers⟩ := exists_of_passes hpasses
  exact ⟨reach, contention, hreach, hcontention, eq_of_beq hmembers,
    candidates_grouped hreach hcontention⟩

end Contention

end Interlock
