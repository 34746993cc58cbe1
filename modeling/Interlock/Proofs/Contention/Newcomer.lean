/-
A transaction that nothing mentions is a candidate by itself.

It is declared last, calls nothing, and no call, relation or coupling is about it.  So the paths of
the other actions are the same, and what they stand for; the ties between transactions are the
same, and nobody can join the newcomer or be joined by it.  Its candidate is listed last, since no
transaction has a larger number; it takes part in no conflict and in no preference, so it is
considered last, and all other candidates are considered in the order they were.
-/
import Interlock.Proofs.Anchored
import Interlock.Proofs.Contention.Alike
import Interlock.Proofs.Contention.Circle

namespace Interlock

theorem Relation.preference?_lt {relation : Relation} {actions winner loser : Nat}
    (h : relation.start < actions ∧ relation.finish < actions)
    (hpreference : relation.preference? = some (winner, loser)) :
    winner < actions ∧ loser < actions := by
  obtain ⟨start, finish, kind, priority⟩ := relation
  cases priority with
  | undefined => simp [preference?] at hpreference
  | left =>
      cases hpreference
      exact h
  | right =>
      cases hpreference
      exact h.symm

namespace Ties

variable {ties : Ties} {transactions : List Nat}

theorem listLt_singleton {group : List Nat} {t : Nat} (h : ∀ x ∈ group, x < t) :
    listLt natLt group [t] = true := by
  cases group with
  | nil => rfl
  | cons x rest =>
      have hx : natLt x t = true := natLt_iff.mpr (h x (by simp))
      simp [listLt, hx]

/-- One more transaction that is tied to none is scheduled alone, and after all others if it has
the largest number. -/
theorem units_concat (h : ties.Between transactions) {t : Nat} (hlast : ∀ x ∈ transactions, x < t) :
    ties.units (transactions ++ [t]) = ties.units transactions ++ [[t]] := by
  have hsmaller : ∀ unit ∈ ties.units transactions, ∀ x ∈ unit, x < t := fun unit hunit x hx =>
    hlast x (units_subset h.members unit hunit x hx)
  have hgroups : ties.groups (transactions ++ [t]).length = ties.groups transactions.length := by
    rw [List.length_append]
    exact grow_seeds_eq h 1
  have hunit : ∀ unit, unit ∈ ties.units transactions ↔
      unit ∈ (ties.groups transactions.length).filter (ties.joiners · |>.isEmpty) ++
        (transactions.filter fun t => !((ties.groups transactions.length).filter
          (ties.joiners · |>.isEmpty)).any (·.contains t)).map ([·]) := by
    intro unit
    unfold units
    rw [mem_ascending (listLt_separating natLt_separating)]
  have halone : ((ties.groups transactions.length).filter (ties.joiners · |>.isEmpty)).any
      (·.contains t) = false := by
    rw [List.any_eq_false]
    intro group hgroup hmem
    have hlt := hsmaller group ((hunit group).mpr (List.mem_append_left _ hgroup)) t
      (List.contains_iff_mem.mp hmem)
    omega
  unfold units
  simp only [hgroups, List.filter_append, List.map_append, ← List.append_assoc]
  rw [List.filter_cons_of_pos (by simpa using halone), List.filter_nil]
  refine ascending_concat fun unit hmem => listLt_singleton ?_
  exact hsmaller unit ((hunit unit).mpr hmem)

end Ties

/-! ### Paths and ties -/

namespace Reach

variable {plan : Plan} {newcomer : Action} {reach reach' : Reach} {ties : Ties}

/-- A transaction has joined that nothing mentions. -/
structure Joined (newcomer : Action) (reach reach' : Reach) : Prop where
  role : newcomer.isTransaction = true
  couplings : reach.plan.couplings.Between reach.plan.roster.size
  plan : reach'.plan = reach.plan.joinedBy newcomer
  pathsOf : ∀ a, reach'.pathsOf a = reach.pathsOf a
  silent : reach.pathsOf reach.plan.roster.size = []

/-- Calls lead the same ways. -/
theorem ofPlan_joined (hrole : newcomer.isTransaction = true)
    (hcouplings : plan.couplings.Between plan.roster.size) (h : ofPlan plan = .ok reach) :
    ∃ reach', ofPlan (plan.joinedBy newcomer) = .ok reach' ∧ reach.Joined newcomer reach' := by
  have hfollowed := ofPlan_followed h
  have hbetween : (plan.joinedBy newcomer).calls.Between (plan.joinedBy newcomer).roster.size := by
    intro id site hsite
    obtain ⟨hcaller, hcallee⟩ := hfollowed.between id site hsite
    rw [Plan.size_joinedBy]
    exact ⟨Nat.lt_succ_of_lt hcaller, Nat.lt_succ_of_lt hcallee⟩
  have hacyclic : Precedence.Acyclic (plan.joinedBy newcomer).calls.edges :=
    Calls.acyclic_of_bounded hfollowed.bounded
  have hreach' : ofPlan (plan.joinedBy newcomer) = .ok ⟨plan.joinedBy newcomer,
      (Array.range (plan.roster.size + 1)).map (plan.calls.pathsFrom (plan.roster.size + 1))⟩ := by
    rw [ofPlan_eq hbetween, (Calls.circle?_eq_none_iff hbetween).mpr hacyclic, Plan.size_joinedBy]
    rfl
  have hsilent : reach.pathsOf plan.roster.size = [] := by
    rw [pathsOf_eq h, if_neg (Nat.lt_irrefl _)]
  refine ⟨_, hreach', hrole, hfollowed.plan_eq ▸ hcouplings, ?_, fun a => ?_, ?_⟩
  · rw [hfollowed.plan_eq]
  · have hcalls : ∀ ids m, plan.calls.Leads a ids m → ids.length ≤ plan.roster.size :=
      fun ids m hleads => hfollowed.bounded hleads
    rw [pathsOf_eq h, pathsOf_eq hreach']
    have hpaths : (plan.joinedBy newcomer).calls.pathsFrom (plan.roster.size + 1) a =
        plan.calls.pathsFrom plan.roster.size a := Calls.pathsFrom_eq hcalls (Nat.le_succ _)
    rw [Plan.size_joinedBy, hpaths]
    by_cases ha : a < plan.roster.size
    · rw [if_pos ha, if_pos (Nat.lt_succ_of_lt ha)]
    · have hnone : plan.calls.pathsFrom plan.roster.size a = [] := by
        refine List.eq_nil_iff_forall_not_mem.mpr fun path hpath => ha ?_
        exact ((Calls.mem_pathsFrom _ a path).mp hpath).1.caller_lt hfollowed.between
      rw [hnone, if_neg ha, ite_self]
  · rw [hfollowed.plan_eq]
    exact hsilent

namespace Joined

variable (h : reach.Joined newcomer reach')
include h

theorem size_eq : reach'.plan.roster.size = reach.plan.roster.size + 1 := by
  rw [h.plan, Plan.size_joinedBy]

theorem transactions_eq : reach'.plan.roster.transactions =
    reach.plan.roster.transactions ++ [(reach.plan.roster.size, newcomer)] := by
  rw [h.plan, Plan.transactions_joinedBy h.role]

theorem methods_eq : reach'.plan.roster.methods = reach.plan.roster.methods := by
  rw [h.plan, Plan.methods_joinedBy h.role]

theorem couplings_eq : reach'.plan.couplings = reach.plan.couplings := by
  rw [h.plan]
  rfl

theorem name_eq {a : ActionId} (ha : a < reach.plan.roster.size) :
    reach'.plan.name a = reach.plan.name a := by
  rw [h.plan]
  exact Roster.name_push_of_lt newcomer ha

/-- The newcomer stands for nothing but itself. -/
theorem standsFor_eq {a : ActionId} (ha : a < reach.plan.roster.size) :
    reach'.standsFor a = reach.standsFor a := by
  have hsame : ∀ t, (t == a || reach'.reaches t a) = (t == a || reach.reaches t a) := by
    intro t
    unfold reaches
    rw [h.pathsOf]
  have hnot : (reach.plan.roster.size == a || reach.reaches reach.plan.roster.size a) = false := by
    have hne : reach.plan.roster.size ≠ a := Nat.ne_of_gt ha
    unfold reaches
    rw [h.silent]
    simpa using hne
  unfold standsFor
  simp only [hsame, h.transactions_eq, List.map_append, List.filter_append]
  simp [hnot]

theorem project_eq {a b : ActionId} (ha : a < reach.plan.roster.size)
    (hb : b < reach.plan.roster.size) : reach'.project a b = reach.project a b := by
  unfold project
  rw [h.standsFor_eq ha, h.standsFor_eq hb]

theorem apart_eq : reach'.apart = reach.apart := by
  unfold apart
  rw [h.couplings_eq]
  congr 1
  refine List.flatMap_congr fun pair hpair => ?_
  obtain ⟨ha, hb⟩ := h.couplings.independent pair.1 pair.2 hpair
  exact h.project_eq ha hb

theorem together_eq : reach'.together = reach.together := by
  unfold together
  rw [h.couplings_eq]
  congr 1
  refine List.flatMap_congr fun pair hpair => ?_
  obtain ⟨ha, hb⟩ := h.couplings.simultaneous pair.1 pair.2 hpair
  exact h.project_eq ha hb

theorem ties_eq_ok (hties : reach.ties = .ok ties) : reach'.ties = .ok ties := by
  rw [ties_eq_ok_iff] at *
  rw [h.together_eq, h.apart_eq]
  exact hties

theorem candidate_eq {members : List ActionId} (hlt : ∀ t ∈ members, t < reach.plan.roster.size) :
    reach'.candidate members = reach.candidate members := by
  have hnames : members.map reach'.plan.name = members.map reach.plan.name :=
    List.map_congr_left fun t ht => h.name_eq (hlt t ht)
  have hpaths : members.flatMap reach'.pathsOf = members.flatMap reach.pathsOf :=
    List.flatMap_congr fun t _ => h.pathsOf t
  unfold candidate
  rw [hnames, hpaths]

/-- **The newcomer is a candidate, and the others are the candidates they were.** -/
theorem candidates_eq (hties : reach.ties = .ok ties) : reach'.candidates ties =
    reach.candidates ties ++ [reach'.candidate [reach.plan.roster.size]] := by
  have hbetween := ties_between hties
  have hlast : ∀ t ∈ reach.plan.roster.transactions.map Prod.fst, t < reach.plan.roster.size := by
    intro t ht
    obtain ⟨⟨a, transaction⟩, hmem, rfl⟩ := List.mem_map.mp ht
    exact Roster.lt_of_mem_transactions hmem
  unfold candidates
  rw [h.transactions_eq, List.map_append, List.map_singleton, Ties.units_concat hbetween hlast,
    List.map_append, List.map_singleton]
  congr 1
  refine List.map_congr_left fun unit hunit => h.candidate_eq fun t ht => ?_
  exact hlast t (Ties.units_subset hbetween.members unit hunit t ht)

end Joined

end Reach

/-! ### Candidates, conflicts and preferences -/

theorem Reach.Followed.of_self {plan : Plan} {reach : Reach} (h : Reach.Followed plan reach) :
    Reach.Followed reach.plan reach := by
  obtain rfl := h.plan_eq
  exact h

namespace Slate

variable {newcomer : Action} {reach reach' : Reach} {slate slate' : Slate}

theorem Holds.lt_size {c : Nat} {t : ActionId} (h : slate.Holds c t) : c < slate.size := by
  obtain ⟨candidate, hcandidate, -⟩ := h
  exact (List.getElem?_eq_some_iff.mp hcandidate).1

theorem Involves.lt_size {c : Nat} {a : ActionId} (h : slate.Involves c a) : c < slate.size := by
  rcases h with hholds | ⟨t, ids, hholds, -⟩
  · exact hholds.lt_size
  · exact hholds.lt_size

/-- Only candidates conflict. -/
theorem Justifies.lt_size {c d : Nat} {reason : Reason} (h : slate.Justifies c d reason) :
    d < slate.size := by
  cases reason with
  | sharedMember t => exact h.2.lt_size
  | sharedMethod m =>
      obtain ⟨-, -, t, ids, hholds, -⟩ := h
      exact hholds.lt_size
  | independent x y =>
      obtain ⟨-, -, ⟨-, hd⟩ | ⟨hd, -⟩⟩ := h
      · exact hd.lt_size
      · exact hd.lt_size
  | explicit start finish =>
      obtain ⟨relation, -, -, -, -, ⟨-, hd⟩ | ⟨hd, -⟩⟩ := h
      · exact hd.lt_size
      · exact hd.lt_size

/-- The newcomer is the last candidate. -/
structure Joined (newcomer : Action) (slate slate' : Slate) : Prop where
  reach : slate.reach.Joined newcomer slate'.reach
  drawn : slate.Drawn slate.reach
  ties : slate'.ties = slate.ties
  candidates : slate'.candidates =
    slate.candidates ++ [slate'.reach.candidate [slate.plan.roster.size]]

theorem ofReach_joined (h : reach.Joined newcomer reach') (hslate : ofReach reach = .ok slate) :
    ∃ slate', ofReach reach' = .ok slate' ∧ slate.Joined newcomer slate' := by
  have hdrawn := ofReach_drawn hslate
  obtain ⟨ties, hties, hpure⟩ := bind_eq_ok_iff.mp hslate
  cases hpure
  refine ⟨⟨reach', ties, reach'.candidates ties⟩, ?_, h, hdrawn, rfl, h.candidates_eq hties⟩
  exact bind_eq_ok_iff.mpr ⟨ties, h.ties_eq_ok hties, rfl⟩

namespace Joined

variable (h : slate.Joined newcomer slate')
include h

theorem couplings_eq : slate'.plan.couplings = slate.plan.couplings := h.reach.couplings_eq

theorem methods_eq : slate'.plan.roster.methods = slate.plan.roster.methods := h.reach.methods_eq

theorem members_lt {candidate : Candidate} (hcandidate : candidate ∈ slate.candidates) {t : ActionId}
    (ht : t ∈ candidate.members) : t < slate.plan.roster.size := by
  obtain ⟨c, hc⟩ := List.mem_iff_getElem?.mp hcandidate
  obtain ⟨transaction, hmem⟩ := holds_transaction h.drawn ⟨candidate, hc, ht⟩
  exact Roster.lt_of_mem_transactions hmem

theorem numbersOf_of_not {test : Candidate → Bool}
    (htest : test (slate'.reach.candidate [slate.plan.roster.size]) = false) :
    slate'.numbersOf test = slate.numbersOf test := by
  unfold numbersOf
  rw [h.candidates, List.zipIdx_append, List.filter_append, List.map_append]
  simp [htest]

/-- The newcomer is held by its own candidate. -/
theorem holdersOf_newcomer : slate'.holdersOf slate.plan.roster.size = [slate.size] := by
  have hnone : slate.holdersOf slate.plan.roster.size = [] := by
    refine List.eq_nil_iff_forall_not_mem.mpr fun c hc => ?_
    obtain ⟨candidate, hcandidate, hmember⟩ := mem_holdersOf.mp hc
    exact Nat.lt_irrefl _ (h.members_lt (List.mem_of_getElem? hcandidate) hmember)
  unfold holdersOf numbersOf at hnone ⊢
  rw [h.candidates, List.zipIdx_append, List.filter_append, List.map_append, hnone]
  simp [Reach.candidate, size]

theorem holdersOf_eq {a : ActionId} (ha : a < slate.plan.roster.size) :
    slate'.holdersOf a = slate.holdersOf a := by
  refine h.numbersOf_of_not ?_
  have hne : a ≠ slate.plan.roster.size := Nat.ne_of_lt ha
  simpa [Reach.candidate] using hne

theorem usersOf_eq {a : ActionId} (ha : a < slate.plan.roster.size) :
    slate'.usersOf a = slate.usersOf a := by
  refine h.numbersOf_of_not ?_
  have hne : a ≠ slate.plan.roster.size := Nat.ne_of_lt ha
  have hsilent : slate'.reach.pathsOf slate.plan.roster.size = [] :=
    (h.reach.pathsOf _).trans h.reach.silent
  unfold Candidate.uses Reach.candidate
  simp [hne, hsilent]

theorem memberClashes_eq : slate'.memberClashes = slate.memberClashes := by
  have hown : clashesAmong (.sharedMember slate.plan.roster.size)
      (slate'.holdersOf slate.plan.roster.size) = [] := by
    rw [h.holdersOf_newcomer]
    rfl
  have htransactions : slate'.plan.roster.transactions =
      slate.plan.roster.transactions ++ [(slate.plan.roster.size, newcomer)] :=
    h.reach.transactions_eq
  unfold memberClashes
  rw [htransactions, List.flatMap_append, List.flatMap_singleton]
  dsimp only
  rw [hown, List.append_nil]
  refine List.flatMap_congr fun entry hentry => ?_
  rw [h.holdersOf_eq (Roster.lt_of_mem_transactions hentry)]

theorem alternativeClashes_eq : slate'.alternativeClashes = slate.alternativeClashes := by
  unfold alternativeClashes
  rw [h.ties]
  refine List.flatMap_congr fun pair hpair => ?_
  obtain ⟨hx, hy⟩ := Reach.mem_transactions_of_mem_apart h.drawn.ties_eq hpair
  have hlt : ∀ t ∈ slate.reach.plan.roster.transactions.map Prod.fst,
      t < slate.plan.roster.size := by
    intro t ht
    obtain ⟨entry, hentry, rfl⟩ := List.mem_map.mp ht
    exact Roster.lt_of_mem_transactions hentry
  dsimp only
  rw [h.holdersOf_eq (hlt _ hx), h.holdersOf_eq (hlt _ hy)]

theorem methodClashes_eq : slate'.methodClashes = slate.methodClashes := by
  unfold methodClashes exclusiveMethods
  rw [h.methods_eq]
  refine List.flatMap_congr fun entry hentry => ?_
  dsimp only
  rw [h.usersOf_eq (Roster.lt_of_mem_methods (List.mem_filter.mp hentry).1)]

theorem declaredClashes_eq : slate'.declaredClashes = slate.declaredClashes := by
  unfold declaredClashes
  rw [h.couplings_eq]
  refine List.flatMap_congr fun relation hrelation => ?_
  obtain ⟨hstart, hfinish⟩ :=
    h.reach.couplings.relations relation (List.mem_filter.mp hrelation).1
  rw [h.usersOf_eq hstart, h.usersOf_eq hfinish]

theorem clashes_eq : slate'.clashes = slate.clashes := by
  unfold clashes
  rw [h.memberClashes_eq, h.alternativeClashes_eq, h.methodClashes_eq, h.declaredClashes_eq]

theorem priorities_eq : slate'.priorities = slate.priorities := by
  unfold priorities
  rw [h.couplings_eq]
  congr 1
  refine List.flatMap_congr fun pair hpair => ?_
  obtain ⟨relation, hrelation, hpreference⟩ := List.mem_filterMap.mp hpair
  obtain ⟨hwinner, hloser⟩ :=
    Relation.preference?_lt (h.reach.couplings.relations relation hrelation) hpreference
  dsimp only
  rw [h.usersOf_eq hwinner, h.usersOf_eq hloser]

/-- A candidate conflicts with itself only if it did. -/
theorem selfConflicting (hfollowed : Reach.Followed slate.plan slate.reach)
    (hfollowed' : Reach.Followed slate'.plan slate'.reach) (hdrawn' : slate'.Drawn slate'.reach)
    (hself : slate'.SelfConflicting) : slate.SelfConflicting := by
  have hcalls : slate'.plan.calls = slate.plan.calls := by
    unfold Slate.plan
    rw [h.reach.plan]
    rfl
  rcases hself with ⟨candidate, hcandidate, m, hm, t, ht, t', ht', ids, ids', hleads, htwice⟩ |
      ⟨relation, hrelation, hconflict, c, hstart, hfinish⟩
  · refine .inl ⟨candidate, ?_, m, ?_, t, ht, t', ht', ids, ids', hcalls ▸ hleads, hcalls ▸ htwice⟩
    · rw [h.candidates, List.mem_append, List.mem_singleton] at hcandidate
      refine hcandidate.resolve_right fun hown => ?_
      obtain rfl : t = slate.plan.roster.size := by
        rw [hown] at ht
        exact List.mem_singleton.mp ht
      rw [hcalls] at hleads
      exact absurd (hleads.caller_lt hfollowed.between) (Nat.lt_irrefl _)
    · unfold IsExclusive at *
      rwa [h.methods_eq] at hm
  · rw [h.couplings_eq] at hrelation
    obtain ⟨hstartLt, hfinishLt⟩ := h.reach.couplings.relations relation hrelation
    rw [← mem_usersOf_iff hdrawn' hfollowed', h.usersOf_eq hstartLt,
      mem_usersOf_iff h.drawn hfollowed] at hstart
    rw [← mem_usersOf_iff hdrawn' hfollowed', h.usersOf_eq hfinishLt,
      mem_usersOf_iff h.drawn hfollowed] at hfinish
    exact .inr ⟨relation, hrelation, hconflict, c, hstart, hfinish⟩

end Joined

end Slate

namespace Contention

variable {newcomer : Action} {contention contention' : Contention}

/-- The newcomer is considered last, and conflicts with nobody. -/
structure Joined (newcomer : Action) (contention contention' : Contention) : Prop where
  slate : contention.slate.Joined newcomer contention'.slate
  clashes : contention'.clashes = contention.clashes
  free : ∀ c, contention.inConflict c contention.size = false
  order : contention'.order = contention.order ++ [contention.size]

/-- **A transaction that nothing mentions leaves the contention between the others as it is.** -/
theorem ofPlan_joined {plan : Plan} (hrole : newcomer.isTransaction = true)
    (hcouplings : plan.couplings.Between plan.roster.size)
    (hcontention : ofPlan plan = .ok contention) :
    ∃ contention', ofPlan (plan.joinedBy newcomer) = .ok contention' ∧
      contention.Joined newcomer contention' := by
  obtain ⟨reach, hreach, hof⟩ := bind_eq_ok_iff.mp hcontention
  obtain ⟨slate, hslate, -⟩ := bind_eq_ok_iff.mp hof
  obtain ⟨rfl, hpriorities, harrange⟩ := of_ofReach_eq_ok hslate hof
  have hworked := ofReach_workedOut hof
  obtain ⟨reach', hreach', hjoined⟩ := Reach.ofPlan_joined hrole hcouplings hreach
  obtain ⟨slate', hslate', hsame⟩ := Slate.ofReach_joined hjoined hslate
  have hdrawn' := Slate.ofReach_drawn hslate'
  obtain rfl := hworked.reach_eq
  obtain rfl := hdrawn'.reach_eq
  have hfollowed := (Reach.ofPlan_followed hreach).of_self
  have hfollowed' := (Reach.ofPlan_followed hreach').of_self
  have hself : slate'.selfConflict? = none := by
    rw [Slate.selfConflict?_eq_none_iff hreach' hslate']
    intro hself
    have hnone := hworked.consistent
    rw [Slate.selfConflict?_eq_none_iff hreach hslate] at hnone
    exact hnone (hsame.selfConflicting hfollowed hfollowed' hdrawn' hself)
  have hsize : slate'.size = contention.slate.size + 1 := by
    unfold Slate.size
    rw [hsame.candidates, List.length_append, List.length_singleton]
  refine ⟨⟨slate', slate'.clashes, slate'.priorities, contention.order ++ [contention.slate.size],
    slate'.warnings⟩, ?_, hsame, ?_, ?_, rfl⟩
  · refine bind_eq_ok_iff.mpr ⟨_, hreach', ?_⟩
    rw [ofReach_eq hslate', hself, hsize, hsame.priorities_eq,
      Precedence.arrange_succ Slate.priorities_within harrange]
  · rw [hworked.clashes_eq]
    exact hsame.clashes_eq
  · intro c
    by_contra hnot
    have hconflict : contention.inConflict c contention.size = true := by simpa using hnot
    have hne : c ≠ contention.size := by
      rintro rfl
      exact hnot (hworked.inConflict_self _)
    obtain ⟨reason, hclash⟩ := inConflict_iff.mp hconflict
    rw [hworked.clashes_eq, Slate.mk_mem_clashes_iff hsame.drawn hfollowed hne] at hclash
    exact Nat.lt_irrefl _ hclash.lt_size

namespace Joined

variable (h : contention.Joined newcomer contention')
include h

theorem candidates_eq : contention'.candidates = contention.candidates ++
    [contention'.slate.reach.candidate [contention.slate.plan.roster.size]] := h.slate.candidates

theorem size_eq : contention'.size = contention.size + 1 := by
  show contention'.candidates.length = contention.candidates.length + 1
  rw [h.candidates_eq, List.length_append, List.length_singleton]

theorem inConflict_eq : contention'.inConflict = contention.inConflict := by
  funext a b
  unfold inConflict
  rw [h.clashes]

/-- The others have the rivals they had. -/
theorem rivals_eq (c : Nat) : contention'.rivals c = contention.rivals c := by
  unfold rivals
  rw [h.inConflict_eq, h.size_eq, List.range_succ, List.filter_append]
  simp [h.free c]

theorem rivals_newcomer : contention'.rivals contention.size = [] := by
  rw [h.rivals_eq]
  unfold rivals
  simp [inConflict_comm contention.size, h.free]

end Joined

end Contention
end Interlock
