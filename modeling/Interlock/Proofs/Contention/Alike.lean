/-
Plans that say the same have the same contention.

Two plans are alike if they differ only in their couplings and these say the same, in whatever
order and direction.  Everything the schedule asks of the couplings is a set: which pairs of
transactions are tied or kept apart, which candidates conflict and which precede others.  Sets are
listed in ascending order, so that the candidates, the pairs in conflict and the order of the
schedule come out the same; only the reasons for a conflict remember how it was declared.
-/
import Interlock.Proofs.Contention.Arrangement
import Interlock.Proofs.Coupling

namespace Interlock

/-- The plans differ in their couplings only, which say the same. -/
structure Plan.Alike (plan plan' : Plan) : Prop where
  roster : plan'.roster = plan.roster
  calls : plan'.calls = plan.calls
  couplings : plan.couplings.Alike plan'.couplings

theorem Plan.Alike.symm {plan plan' : Plan} (h : plan.Alike plan') : plan'.Alike plan :=
  ⟨h.roster.symm, h.calls.symm, h.couplings.symm⟩

theorem Plan.Alike.name {plan plan' : Plan} (h : plan.Alike plan') : plan'.name = plan.name := by
  funext action
  unfold Plan.name
  rw [h.roster]

namespace Reach

variable {reach reach' : Reach} {ties : Ties}

/-- Calls lead the same ways in plans that are alike. -/
structure Alike (reach reach' : Reach) : Prop where
  plan : reach.plan.Alike reach'.plan
  paths : reach'.paths = reach.paths

theorem ofPlan_alike {plan plan' : Plan} (h : plan.Alike plan') (hreach : ofPlan plan = .ok reach) :
    ofPlan plan' = .ok ⟨plan', reach.paths⟩ := by
  unfold ofPlan at *
  obtain ⟨hchecks, hreach⟩ := bind_check_eq_ok_iff.mp hreach
  rw [h.roster, h.calls]
  refine bind_check_eq_ok_iff.mpr ⟨hchecks, ?_⟩
  split at hreach
  · cases hreach
  · cases hreach
    rfl

section Alike

variable (h : reach.Alike reach')
include h

theorem Alike.symm : reach'.Alike reach := ⟨h.plan.symm, h.paths.symm⟩

theorem Alike.pathsOf_eq : reach'.pathsOf = reach.pathsOf := by
  funext a
  unfold pathsOf
  rw [h.paths]

theorem Alike.standsFor_eq (a : ActionId) : reach'.standsFor a = reach.standsFor a := by
  unfold standsFor reaches
  simp only [h.plan.roster, h.pathsOf_eq]

theorem Alike.project_eq (a b : ActionId) : reach'.project a b = reach.project a b := by
  unfold project
  simp only [h.standsFor_eq]

theorem Alike.apart_eq : reach'.apart = reach.apart := by
  refine ascending_eq_of_mem_iff (pairLt_ranking natLt_ranking natLt_ranking) fun pair => ?_
  simp only [List.mem_flatMap, h.project_eq, h.plan.couplings.independent]

theorem Alike.together_eq : reach'.together = reach.together := by
  refine ascending_eq_of_mem_iff (pairLt_ranking natLt_ranking natLt_ranking) fun pair => ?_
  simp only [List.mem_flatMap, h.project_eq, h.plan.couplings.simultaneous]

theorem Alike.candidate_eq (members : List ActionId) :
    reach'.candidate members = reach.candidate members := by
  unfold candidate
  simp only [h.plan.name, h.pathsOf_eq]

theorem Alike.candidates_eq (ties : Ties) : reach'.candidates ties = reach.candidates ties := by
  unfold candidates
  rw [h.plan.roster]
  exact List.map_congr_left fun members _ => h.candidate_eq members

end Alike

/-- Ties are found exactly if no tied pair is kept apart. -/
theorem ties_eq_ok_iff : reach.ties = .ok ties ↔
    ties = ⟨reach.together, reach.apart⟩ ∧ ∀ pair ∈ reach.together, pair ∉ reach.apart := by
  refine ⟨ties_eq_ok, fun ⟨hties, hnever⟩ => ?_⟩
  unfold Reach.ties
  dsimp only
  split
  · rename_i a b htorn
    have hany := List.find?_some htorn
    dsimp only at hany
    obtain ⟨pair, hproject, hapart⟩ := List.any_eq_true.mp hany
    have htogether := mem_together.mpr ⟨a, b, List.mem_of_find?_eq_some htorn, hproject⟩
    exact absurd (List.contains_iff_mem.mp hapart) (hnever pair htogether)
  · rw [hties]

theorem Alike.ties_eq_ok (h : reach.Alike reach') (hties : reach.ties = .ok ties) :
    reach'.ties = .ok ties := by
  rw [ties_eq_ok_iff] at *
  rw [h.together_eq, h.apart_eq]
  exact hties

end Reach

namespace Slate

variable {slate slate' : Slate}

/-- The slates have the same candidates, of plans that are alike. -/
structure Alike (slate slate' : Slate) : Prop where
  reach : slate.reach.Alike slate'.reach
  ties : slate'.ties = slate.ties
  candidates : slate'.candidates = slate.candidates

theorem ofReach_alike {reach reach' : Reach} (h : reach.Alike reach')
    (hslate : ofReach reach = .ok slate) :
    ∃ slate', ofReach reach' = .ok slate' ∧ slate.Alike slate' := by
  obtain ⟨ties, hties, hpure⟩ := bind_eq_ok_iff.mp hslate
  cases hpure
  refine ⟨⟨reach', ties, reach'.candidates ties⟩, ?_, h, rfl, h.candidates_eq ties⟩
  exact bind_eq_ok_iff.mpr ⟨ties, h.ties_eq_ok hties, rfl⟩

variable (h : slate.Alike slate')
include h

theorem Alike.plan : slate.plan.Alike slate'.plan := h.reach.plan

theorem Alike.symm : slate'.Alike slate := ⟨h.reach.symm, h.ties.symm, h.candidates.symm⟩

theorem Alike.numbersOf_eq (test : Candidate → Bool) :
    slate'.numbersOf test = slate.numbersOf test := by
  unfold numbersOf
  rw [h.candidates]

theorem Alike.holdersOf_eq (a : ActionId) : slate'.holdersOf a = slate.holdersOf a :=
  h.numbersOf_eq _

theorem Alike.usersOf_eq (a : ActionId) : slate'.usersOf a = slate.usersOf a := h.numbersOf_eq _

/-- The same candidates precede others: a preference is the same from either end. -/
theorem Alike.priorities_eq : slate'.priorities = slate.priorities := by
  have hpreferences : ∀ pair, pair ∈ slate'.plan.couplings.relations.filterMap (·.preference?) ↔
      pair ∈ slate.plan.couplings.relations.filterMap (·.preference?) := by
    have hside : ∀ {slate slate' : Slate}, slate.Alike slate' → ∀ pair,
        pair ∈ slate.plan.couplings.relations.filterMap (·.preference?) →
          pair ∈ slate'.plan.couplings.relations.filterMap (·.preference?) := by
      intro slate slate' h pair hpair
      obtain ⟨relation, hrelation, hpreference⟩ := List.mem_filterMap.mp hpair
      rcases h.plan.couplings.relations relation hrelation with hsame | hturned
      · exact List.mem_filterMap.mpr ⟨relation, hsame, hpreference⟩
      · refine List.mem_filterMap.mpr ⟨relation.turned, hturned, ?_⟩
        rw [relation.turned_preference?, hpreference]
    exact fun pair => ⟨hside h.symm pair, hside h pair⟩
  refine ascending_eq_of_mem_iff (pairLt_ranking natLt_ranking natLt_ranking) fun pair => ?_
  simp only [List.mem_flatMap, hpreferences, h.usersOf_eq]

/-- The same candidates conflict, if not for the same reasons: a conflict that is declared from the
other end is one between the same candidates. -/
theorem Alike.exists_clash {edge : Nat × Nat} (hclash : ∃ clash ∈ slate.clashes, clash.edge = edge) :
    ∃ clash ∈ slate'.clashes, clash.edge = edge := by
  obtain ⟨clash, hclash, rfl⟩ := hclash
  rcases mem_clashes.mp hclash with hmember | halternative | hmethod | hdeclared
  · refine ⟨clash, mem_clashes.mpr (.inl ?_), rfl⟩
    unfold memberClashes at *
    simpa only [h.plan.roster, h.holdersOf_eq] using hmember
  · refine ⟨clash, mem_clashes.mpr (.inr (.inl ?_)), rfl⟩
    unfold alternativeClashes at *
    simpa only [h.ties, h.holdersOf_eq] using halternative
  · refine ⟨clash, mem_clashes.mpr (.inr (.inr (.inl ?_))), rfl⟩
    unfold methodClashes exclusiveMethods at *
    simpa only [h.plan.roster, h.usersOf_eq] using hmethod
  · obtain ⟨relation, hrelation, hbetween⟩ := List.mem_flatMap.mp hdeclared
    obtain ⟨hrelation, hconflict⟩ := List.mem_filter.mp hrelation
    obtain ⟨c, hc, d, hd, hne, rfl⟩ := mem_clashesBetween.mp hbetween
    rcases h.plan.couplings.relations relation hrelation with hsame | hturned
    · refine ⟨⟨ordered c d, .explicit relation.start relation.finish⟩, ?_, rfl⟩
      refine mem_clashes.mpr (.inr (.inr (.inr ?_)))
      refine List.mem_flatMap.mpr ⟨relation, List.mem_filter.mpr ⟨hsame, hconflict⟩, ?_⟩
      rw [h.usersOf_eq, h.usersOf_eq]
      exact hbetween
    · refine ⟨⟨ordered d c, .explicit relation.finish relation.start⟩, ?_, ordered_comm d c⟩
      refine mem_clashes.mpr (.inr (.inr (.inr ?_)))
      refine List.mem_flatMap.mpr ⟨relation.turned, List.mem_filter.mpr ⟨hturned, hconflict⟩, ?_⟩
      rw [h.usersOf_eq, h.usersOf_eq]
      exact mem_clashesBetween.mpr ⟨d, hd, c, hc, hne.symm, rfl⟩

theorem Alike.involves {c : Nat} {a : ActionId} (hinvolves : slate.Involves c a) :
    slate'.Involves c a := by
  unfold Involves Reaches Holds at *
  rwa [h.candidates, h.plan.calls]

/-- A candidate that conflicts with itself does so from either end. -/
theorem Alike.selfConflicting (hself : slate.SelfConflicting) : slate'.SelfConflicting := by
  rcases hself with htwice | ⟨relation, hrelation, hconflict, c, hstart, hfinish⟩
  · refine .inl ?_
    unfold IsExclusive at *
    rwa [h.candidates, h.plan.calls, h.plan.roster]
  · refine .inr ?_
    rcases h.plan.couplings.relations relation hrelation with hsame | hturned
    · exact ⟨relation, hsame, hconflict, c, h.involves hstart, h.involves hfinish⟩
    · exact ⟨relation.turned, hturned, hconflict, c, h.involves hfinish, h.involves hstart⟩

omit h in
/-- The search for a candidate that conflicts with itself fails exactly if there is none. -/
theorem selfConflict?_eq_none_iff {plan : Plan} {reach : Reach}
    (hreach : Reach.ofPlan plan = .ok reach) (hslate : ofReach reach = .ok slate) :
    slate.selfConflict? = none ↔ ¬ slate.SelfConflicting := by
  have hdrawn := ofReach_drawn hslate
  have hfollowed := Reach.ofPlan_followed hreach
  rw [← hfollowed.plan_eq, ← hdrawn.reach_eq] at hfollowed
  rw [← selfConflict?_isSome_iff hdrawn (hdrawn.reach_eq ▸ hfollowed) (Reach.ofPlan_nodup hreach)]
  exact Option.not_isSome_iff_eq_none.symm

end Slate

namespace Contention

variable {contention contention' : Contention}

/-- The contentions agree on all that the schedule asks. -/
structure Alike (contention contention' : Contention) : Prop where
  slate : contention.slate.Alike contention'.slate
  edges : contention'.edges = contention.edges
  inConflict : contention'.inConflict = contention.inConflict
  priorities : contention'.priorities = contention.priorities
  order : contention'.order = contention.order

/-- The same candidates conflict. -/
theorem alike_of_slate (hslate : contention.slate.Alike contention'.slate)
    (hclashes : contention.clashes = contention.slate.clashes)
    (hclashes' : contention'.clashes = contention'.slate.clashes)
    (hpriorities : contention'.priorities = contention.priorities)
    (horder : contention'.order = contention.order) : contention.Alike contention' := by
  have hedge : ∀ edge : Nat × Nat, (∃ clash ∈ contention'.clashes, clash.edge = edge) ↔
      ∃ clash ∈ contention.clashes, clash.edge = edge := by
    intro edge
    rw [hclashes, hclashes']
    exact ⟨hslate.symm.exists_clash, hslate.exists_clash⟩
  refine ⟨hslate, ?_, ?_, hpriorities, horder⟩
  · refine ascending_eq_of_mem_iff (pairLt_ranking natLt_ranking natLt_ranking) fun edge => ?_
    simp only [List.mem_map, hedge]
  · funext a b
    unfold inConflict
    rw [Bool.eq_iff_iff]
    simp only [List.any_eq_true, beq_iff_eq, hedge]

/-- **Plans that are alike have the same contention**, if either has one. -/
theorem ofPlan_alike {plan plan' : Plan} (h : plan.Alike plan')
    (hcontention : ofPlan plan = .ok contention) :
    ∃ contention', ofPlan plan' = .ok contention' ∧ contention.Alike contention' := by
  obtain ⟨reach, hreach, hof⟩ := bind_eq_ok_iff.mp hcontention
  obtain ⟨slate, hslate, -⟩ := bind_eq_ok_iff.mp hof
  obtain ⟨rfl, hpriorities, harrange⟩ := of_ofReach_eq_ok hslate hof
  have hreach' := Reach.ofPlan_alike h hreach
  have hplan : reach.plan = plan := (Reach.ofPlan_followed hreach).plan_eq
  have hpaths : reach.Alike ⟨plan', reach.paths⟩ := ⟨by rw [hplan]; exact h, rfl⟩
  obtain ⟨slate', hslate', hsame⟩ := Slate.ofReach_alike hpaths hslate
  have hself : slate'.selfConflict? = none := by
    rw [Slate.selfConflict?_eq_none_iff hreach' hslate']
    intro hself
    have hnone := (ofReach_workedOut hof).consistent
    rw [Slate.selfConflict?_eq_none_iff hreach hslate] at hnone
    exact hnone (hsame.symm.selfConflicting hself)
  have hsize : slate'.size = contention.slate.size := by
    unfold Slate.size
    rw [hsame.candidates]
  refine ⟨⟨slate', slate'.clashes, slate'.priorities, contention.order, slate'.warnings⟩, ?_, ?_⟩
  · refine bind_eq_ok_iff.mpr ⟨_, hreach', ?_⟩
    rw [ofReach_eq hslate', hself, hsize, hsame.priorities_eq, harrange]
  · refine alike_of_slate hsame ?_ rfl ?_ rfl
    · exact (ofReach_workedOut hof).clashes_eq
    · rw [hpriorities]
      exact hsame.priorities_eq

end Contention
end Interlock
