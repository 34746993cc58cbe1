/-
What couplings between actions say about transactions and candidates.

A transaction carries an action if it is the action or has a call path to it, and an action stands
for the transactions that carry it.  A candidate holds no two transactions that stand for
alternatives, holds whoever is to run together with a member unless another member is kept apart
from that, and takes part in an action exactly if one of its members carries it.
-/
import Interlock.Contention.Slate
import Interlock.Proofs.Contention.Closed

namespace Interlock

namespace Reach

variable {reach : Reach} {ties : Ties}

/-- The transaction is the action, or has a call path to it. -/
def Carries (reach : Reach) (transaction action : ActionId) : Prop :=
  transaction = action ∨ ∃ path ∈ reach.pathsOf transaction, path.method = action

theorem reaches_iff {a m : ActionId} :
    reach.reaches a m = true ↔ ∃ path ∈ reach.pathsOf a, path.method = m := by
  simp only [reaches, List.any_eq_true, beq_iff_eq]

theorem mem_standsFor {t a : ActionId} : t ∈ reach.standsFor a ↔
    t ∈ reach.plan.roster.transactions.map Prod.fst ∧ reach.Carries t a := by
  simp only [standsFor, List.mem_filter, Bool.or_eq_true, beq_iff_eq, reaches_iff, Carries]

theorem mem_project {a b : ActionId} {pair : ActionId × ActionId} :
    pair ∈ reach.project a b ↔
      ∃ x ∈ reach.standsFor a, ∃ y ∈ reach.standsFor b, y ≠ x ∧ ordered x y = pair := by
  simp only [project, List.mem_flatMap, List.mem_map, List.mem_filter, bne_iff_ne, and_assoc]

/-- The pairs are of different transactions, the smaller number first. -/
theorem ordered_of_mem_project {a b x y : ActionId} (h : (x, y) ∈ reach.project a b) :
    ordered x y = (x, y) ∧ x ≠ y := by
  obtain ⟨u, -, v, -, hne, huv⟩ := mem_project.mp h
  have hordered : ordered x y = (x, y) := by
    have hfixed := ordered_ordered u v
    rw [huv] at hfixed
    exact hfixed
  refine ⟨hordered, fun heq => ?_⟩
  rw [← hordered, ordered_eq_iff] at huv
  rcases huv with ⟨hu, hv⟩ | ⟨hu, hv⟩
  · exact hne (by rw [hu, hv, heq])
  · exact hne (by rw [hu, hv, heq])

/-- The pairs are of transactions. -/
theorem mem_transactions_of_mem_project {a b x y : ActionId} (h : (x, y) ∈ reach.project a b) :
    x ∈ reach.plan.roster.transactions.map Prod.fst ∧
      y ∈ reach.plan.roster.transactions.map Prod.fst := by
  obtain ⟨u, hu, v, hv, -, huv⟩ := mem_project.mp h
  have hu' := (mem_standsFor.mp hu).1
  have hv' := (mem_standsFor.mp hv).1
  rw [← (ordered_of_mem_project h).1, ordered_eq_iff] at huv
  rcases huv with ⟨rfl, rfl⟩ | ⟨rfl, rfl⟩
  · exact ⟨hu', hv'⟩
  · exact ⟨hv', hu'⟩

theorem mem_apart {pair : ActionId × ActionId} : pair ∈ reach.apart ↔
    ∃ a b, (a, b) ∈ reach.plan.couplings.independent ∧ pair ∈ reach.project a b := by
  simp only [apart, mem_ascending (pairLt_separating natLt_separating natLt_separating),
    List.mem_flatMap, Prod.exists]

theorem mem_together {pair : ActionId × ActionId} : pair ∈ reach.together ↔
    ∃ a b, (a, b) ∈ reach.plan.couplings.simultaneous ∧ pair ∈ reach.project a b := by
  simp only [together, mem_ascending (pairLt_separating natLt_separating natLt_separating),
    List.mem_flatMap, Prod.exists]

/-- Ties are found only if no tied pair is kept apart. -/
theorem ties_eq_ok (h : reach.ties = .ok ties) :
    ties = ⟨reach.together, reach.apart⟩ ∧ ∀ pair ∈ reach.together, pair ∉ reach.apart := by
  unfold Reach.ties at h
  dsimp only at h
  split at h
  · cases h
  · rename_i htorn
    refine ⟨(Except.ok.inj h).symm, fun pair hpair hapart => ?_⟩
    obtain ⟨a, b, hab, hproject⟩ := mem_together.mp hpair
    refine List.find?_eq_none.mp htorn (a, b) hab ?_
    exact List.any_eq_true.mpr ⟨pair, hproject, by simpa using hapart⟩

/-- What alternatives stand for is kept apart. -/
theorem separates_of_independent (h : reach.ties = .ok ties) {a b x y : ActionId}
    (hab : (a, b) ∈ reach.plan.couplings.independent) (hx : x ∈ reach.standsFor a)
    (hy : y ∈ reach.standsFor b) (hne : x ≠ y) : ordered x y ∈ ties.apart := by
  rw [(ties_eq_ok h).1]
  exact mem_apart.mpr ⟨a, b, hab, mem_project.mpr ⟨x, hx, y, hy, hne.symm, rfl⟩⟩

/-- What is kept apart are different transactions, the smaller number first. -/
theorem ordered_of_mem_apart (h : reach.ties = .ok ties) {x y : ActionId}
    (hxy : (x, y) ∈ ties.apart) : ordered x y = (x, y) ∧ x ≠ y := by
  rw [(ties_eq_ok h).1] at hxy
  obtain ⟨a, b, -, hproject⟩ := mem_apart.mp hxy
  exact ordered_of_mem_project hproject

/-- What is kept apart are transactions. -/
theorem mem_transactions_of_mem_apart (h : reach.ties = .ok ties) {x y : ActionId}
    (hxy : (x, y) ∈ ties.apart) : x ∈ reach.plan.roster.transactions.map Prod.fst ∧
      y ∈ reach.plan.roster.transactions.map Prod.fst := by
  rw [(ties_eq_ok h).1] at hxy
  obtain ⟨a, b, -, hproject⟩ := mem_apart.mp hxy
  exact mem_transactions_of_mem_project hproject

theorem ordered_of_mem_tied (h : reach.ties = .ok ties) {x y : ActionId}
    (hxy : (x, y) ∈ ties.together) : ordered x y = (x, y) ∧ x ≠ y := by
  rw [(ties_eq_ok h).1] at hxy
  obtain ⟨a, b, -, hproject⟩ := mem_together.mp hxy
  exact ordered_of_mem_project hproject

theorem mem_transactions_of_mem_tied (h : reach.ties = .ok ties) {x y : ActionId}
    (hxy : (x, y) ∈ ties.together) : x ∈ reach.plan.roster.transactions.map Prod.fst ∧
      y ∈ reach.plan.roster.transactions.map Prod.fst := by
  rw [(ties_eq_ok h).1] at hxy
  obtain ⟨a, b, -, hproject⟩ := mem_together.mp hxy
  exact mem_transactions_of_mem_project hproject

/-- No tied pair is kept apart. -/
theorem not_separates_of_mem_tied (h : reach.ties = .ok ties) {x y : ActionId}
    (hxy : (x, y) ∈ ties.together) : ties.separates x y = false := by
  unfold Ties.separates
  rw [(ordered_of_mem_tied h hxy).1]
  obtain ⟨rfl, hapart⟩ := ties_eq_ok h
  simpa using hapart (x, y) hxy

/-- What actions that run together stand for is tied. -/
theorem mem_partners_of_simultaneous (h : reach.ties = .ok ties) {a b x y : ActionId}
    (hab : (a, b) ∈ reach.plan.couplings.simultaneous) (hx : x ∈ reach.standsFor a)
    (hy : y ∈ reach.standsFor b) (hne : x ≠ y) :
    y ∈ ties.partners x ∧ x ∈ ties.partners y := by
  have htied : ordered x y ∈ ties.together := by
    rw [(ties_eq_ok h).1]
    exact mem_together.mpr ⟨a, b, hab, mem_project.mpr ⟨x, hx, y, hy, hne.symm, rfl⟩⟩
  rw [Ties.mem_partners, Ties.mem_partners]
  rcases ordered_or x y with heq | heq
  · rw [heq] at htied
    exact ⟨.inl htied, .inr htied⟩
  · rw [heq] at htied
    exact ⟨.inr htied, .inl htied⟩

/-- The members of a candidate are compatible. -/
theorem candidates_compatible (h : reach.ties = .ok ties) :
    ∀ candidate ∈ reach.candidates ties, ties.Compatible candidate.members := by
  intro candidate hcandidate
  obtain ⟨members, hmembers, rfl⟩ := List.mem_map.mp hcandidate
  exact Ties.units_compatible (fun _ _ hxy => not_separates_of_mem_tied h hxy) _ members hmembers

/-- The members of a candidate are transactions. -/
theorem candidates_members (h : reach.ties = .ok ties) :
    ∀ candidate ∈ reach.candidates ties, ∀ t ∈ candidate.members,
      t ∈ reach.plan.roster.transactions.map Prod.fst := by
  intro candidate hcandidate
  obtain ⟨members, hmembers, rfl⟩ := List.mem_map.mp hcandidate
  exact Ties.units_subset (fun _ _ hxy => mem_transactions_of_mem_tied h hxy) members hmembers

/-- Nobody can join a candidate. -/
theorem candidates_closed (h : reach.ties = .ok ties) :
    ∀ candidate ∈ reach.candidates ties, ties.Closed candidate.members := by
  intro candidate hcandidate
  obtain ⟨members, hmembers, rfl⟩ := List.mem_map.mp hcandidate
  exact Ties.units_closed (fun _ _ hxy => mem_transactions_of_mem_tied h hxy)
    (fun _ _ hxy => (ordered_of_mem_tied h hxy).2) members hmembers

theorem candidates_paths {candidate : Candidate} (h : candidate ∈ reach.candidates ties) :
    candidate.paths = candidate.members.flatMap reach.pathsOf := by
  obtain ⟨members, -, rfl⟩ := List.mem_map.mp h
  rfl

/-- A candidate takes part in an action if one of its members carries it. -/
theorem uses_iff {candidate : Candidate} (h : candidate ∈ reach.candidates ties) {a : ActionId} :
    candidate.uses a = true ↔ ∃ t ∈ candidate.members, reach.Carries t a := by
  unfold Candidate.uses Carries
  rw [candidates_paths h]
  simp only [Bool.or_eq_true, List.contains_eq_mem, decide_eq_true_eq, List.any_eq_true,
    List.mem_flatMap, beq_iff_eq]
  constructor
  · rintro (ha | ⟨path, ⟨t, ht, hpath⟩, hmethod⟩)
    · exact ⟨a, ha, .inl rfl⟩
    · exact ⟨t, ht, .inr ⟨path, hpath, hmethod⟩⟩
  · rintro ⟨t, ht, rfl | ⟨path, hpath, hmethod⟩⟩
    · exact .inl ht
    · exact .inr ⟨path, ⟨t, ht, hpath⟩, hmethod⟩

end Reach

namespace Slate

variable {slate : Slate}

theorem mem_numbersOf {test : Candidate → Bool} {c : Nat} : c ∈ slate.numbersOf test ↔
    ∃ candidate, slate.candidates[c]? = some candidate ∧ test candidate = true := by
  simp only [numbersOf, List.mem_map, List.mem_filter, Prod.exists, exists_eq_right,
    List.mem_zipIdx_iff_getElem?]

theorem numbersOf_nodup (test : Candidate → Bool) : (slate.numbersOf test).Nodup := by
  unfold numbersOf
  refine List.Nodup.sublist (List.filter_sublist.map Prod.snd) ?_
  rw [List.zipIdx_map_snd]
  exact List.nodup_range'

theorem lt_of_mem_numbersOf {test : Candidate → Bool} {c : Nat} (h : c ∈ slate.numbersOf test) :
    c < slate.candidates.length := by
  obtain ⟨_, hcandidate, -⟩ := mem_numbersOf.mp h
  exact (List.getElem?_eq_some_iff.mp hcandidate).1

theorem mem_holdersOf {t : ActionId} {c : Nat} : c ∈ slate.holdersOf t ↔
    ∃ candidate, slate.candidates[c]? = some candidate ∧ t ∈ candidate.members := by
  simp only [holdersOf, mem_numbersOf, List.contains_eq_mem, decide_eq_true_eq]

theorem lt_of_mem_holdersOf {t : ActionId} {c : Nat} (h : c ∈ slate.holdersOf t) :
    c < slate.candidates.length := lt_of_mem_numbersOf h

theorem lt_of_mem_usersOf {a : ActionId} {c : Nat} (h : c ∈ slate.usersOf a) :
    c < slate.candidates.length := lt_of_mem_numbersOf h

/-- What holds two transactions is one candidate. -/
theorem exists_holder {t t' : ActionId} {c : Nat} (h : c ∈ slate.holdersOf t)
    (h' : c ∈ slate.holdersOf t') :
    ∃ candidate ∈ slate.candidates, t ∈ candidate.members ∧ t' ∈ candidate.members := by
  obtain ⟨candidate, hcandidate, ht⟩ := mem_holdersOf.mp h
  obtain ⟨candidate', hcandidate', ht'⟩ := mem_holdersOf.mp h'
  rw [hcandidate] at hcandidate'
  cases hcandidate'
  exact ⟨candidate, List.mem_of_getElem? hcandidate, ht, ht'⟩

/-- A candidate takes part in an action if it holds a transaction that carries it. -/
theorem mem_usersOf (h : slate.candidates = slate.reach.candidates slate.ties) {a : ActionId}
    {c : Nat} : c ∈ slate.usersOf a ↔ ∃ t, c ∈ slate.holdersOf t ∧ slate.reach.Carries t a := by
  simp only [usersOf, mem_numbersOf, mem_holdersOf]
  constructor
  · rintro ⟨candidate, hcandidate, huses⟩
    have hmem : candidate ∈ slate.reach.candidates slate.ties :=
      h ▸ List.mem_of_getElem? hcandidate
    obtain ⟨t, ht, hcarries⟩ := (Reach.uses_iff hmem).mp huses
    exact ⟨t, ⟨candidate, hcandidate, ht⟩, hcarries⟩
  · rintro ⟨t, ⟨candidate, hcandidate, ht⟩, hcarries⟩
    have hmem : candidate ∈ slate.reach.candidates slate.ties :=
      h ▸ List.mem_of_getElem? hcandidate
    exact ⟨candidate, hcandidate, (Reach.uses_iff hmem).mpr ⟨t, ht, hcarries⟩⟩

end Slate

end Interlock
