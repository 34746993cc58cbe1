/-
Conflicts are exactly what the plan gives reason for.

Each reason is found by its own pass over lists of candidates, and a pass answers, for two
different candidates, just the reasons that hold between them: which transactions both hold, which
alternatives they hold, one each, which exclusive methods both reach, and which declared conflicts
they take part in at both ends.  The lists say by number what can be said of members and call
paths.  A candidate that would conflict with itself is found, if there is one, since it reaches a
method in two ways or is among the users of both ends.
-/
import Interlock.Proofs.Contention.CallPath
import Interlock.Proofs.Contention.Grouping
import Interlock.Proofs.Roster

namespace Interlock

namespace Slate

variable {reach : Reach} {slate : Slate}

/-- The transaction is a member of the candidate. -/
def Holds (slate : Slate) (c : Nat) (t : ActionId) : Prop :=
  ∃ candidate, slate.candidates[c]? = some candidate ∧ t ∈ candidate.members

/-- Calls lead from a member of the candidate to the method. -/
def Reaches (slate : Slate) (c : Nat) (m : ActionId) : Prop :=
  ∃ t ids, slate.Holds c t ∧ slate.plan.calls.Leads t ids m

/-- The candidate takes part in the action. -/
def Involves (slate : Slate) (c : Nat) (a : ActionId) : Prop :=
  slate.Holds c a ∨ slate.Reaches c a

/-- The action is a method that one caller at a time may use. -/
def IsExclusive (slate : Slate) (m : ActionId) : Prop :=
  ∃ method, (m, method) ∈ slate.plan.roster.methods ∧ method.isNonexclusive = false

/-- The plan gives this reason for a conflict between two candidates. -/
def Justifies (slate : Slate) (c d : Nat) : Reason → Prop
  | .sharedMember t => slate.Holds c t ∧ slate.Holds d t
  | .independent x y => x < y ∧ slate.reach.KeptApart x y ∧
      (slate.Holds c x ∧ slate.Holds d y ∨ slate.Holds d x ∧ slate.Holds c y)
  | .sharedMethod m => slate.IsExclusive m ∧ slate.Reaches c m ∧ slate.Reaches d m
  | .explicit start finish =>
      ∃ relation ∈ slate.plan.couplings.relations, relation.isConflict = true ∧
        relation.start = start ∧ relation.finish = finish ∧
        (slate.Involves c relation.start ∧ slate.Involves d relation.finish ∨
          slate.Involves d relation.start ∧ slate.Involves c relation.finish)

/-- Some candidate would conflict with itself: by two ways to an exclusive method, or by taking
part in both ends of a declared conflict. -/
def SelfConflicting (slate : Slate) : Prop :=
  (∃ candidate ∈ slate.candidates, ∃ m, slate.IsExclusive m ∧
    ∃ t ∈ candidate.members, ∃ t' ∈ candidate.members, ∃ ids ids',
      slate.plan.calls.Leads t ids m ∧ slate.plan.calls.Leads t' ids' m ∧ (t, ids) ≠ (t', ids')) ∨
  ∃ relation ∈ slate.plan.couplings.relations, relation.isConflict = true ∧
    ∃ c, slate.Involves c relation.start ∧ slate.Involves c relation.finish

/-- What is known of the slate of a plan. -/
structure Drawn (reach : Reach) (slate : Slate) : Prop where
  reach_eq : slate.reach = reach
  ties_eq : reach.ties = .ok slate.ties
  candidates_eq : slate.candidates = reach.candidates slate.ties

theorem ofReach_drawn (h : Slate.ofReach reach = .ok slate) : slate.Drawn reach := by
  obtain ⟨ties, hties, hpure⟩ := bind_eq_ok_iff.mp h
  cases hpure
  exact ⟨rfl, hties, rfl⟩

/-- A list without repeats is longer than one if two of its elements differ. -/
theorem one_lt_length_iff {α : Type} {l : List α} (hnodup : l.Nodup) :
    1 < l.length ↔ ∃ a ∈ l, ∃ b ∈ l, a ≠ b := by
  constructor
  · intro hlength
    match l, hlength with
    | a :: b :: rest, _ =>
      refine ⟨a, by simp, b, by simp, fun heq => ?_⟩
      rw [heq] at hnodup
      simp at hnodup
  · intro htwo
    obtain ⟨a, ha, b, hb, hne⟩ := htwo
    by_contra hshort
    exact hne (eq_of_length_le_one (by omega) ha hb)

/-! ### One pass -/

section Pass

variable {reason other : Reason} {these those : List Nat} {c d : Nat}

theorem mk_mem_clashesBetween (hne : c ≠ d) :
    (⟨ordered c d, other⟩ : Clash) ∈ clashesBetween reason these those ↔
      reason = other ∧ (c ∈ these ∧ d ∈ those ∨ d ∈ these ∧ c ∈ those) := by
  rw [mem_clashesBetween]
  constructor
  · intro hmem
    obtain ⟨a, ha, b, hb, -, heq⟩ := hmem
    obtain ⟨hedge, hreason⟩ := Clash.mk.inj heq
    refine ⟨hreason, ?_⟩
    rcases ordered_eq_iff.mp hedge with ⟨rfl, rfl⟩ | ⟨rfl, rfl⟩
    · exact .inl ⟨ha, hb⟩
    · exact .inr ⟨ha, hb⟩
  · intro hmem
    obtain ⟨rfl, ⟨hc, hd⟩ | ⟨hd, hc⟩⟩ := hmem
    · exact ⟨c, hc, d, hd, hne.symm, rfl⟩
    · exact ⟨d, hd, c, hc, hne, by rw [ordered_comm]⟩

theorem mk_mem_clashesAmong (hne : c ≠ d) :
    (⟨ordered c d, other⟩ : Clash) ∈ clashesAmong reason these ↔
      reason = other ∧ c ∈ these ∧ d ∈ these := by
  constructor
  · intro hmem
    obtain ⟨⟨a, b⟩, hab, heq⟩ := List.mem_map.mp hmem
    obtain ⟨hedge, hreason⟩ := Clash.mk.inj heq
    obtain ⟨ha, hb⟩ := mem_of_mem_pairs hab
    refine ⟨hreason, ?_⟩
    rcases ordered_eq_iff.mp hedge with ⟨rfl, rfl⟩ | ⟨rfl, rfl⟩
    · exact ⟨ha, hb⟩
    · exact ⟨hb, ha⟩
  · intro hmem
    obtain ⟨rfl, hc, hd⟩ := hmem
    exact mem_clashesAmong_of_ne hc hd hne

end Pass

section Drawn

variable (h : slate.Drawn reach) (hfollowed : Reach.Followed slate.plan reach)
include h

theorem holds_transaction {c : Nat} {t : ActionId} (ht : slate.Holds c t) :
    ∃ transaction, (t, transaction) ∈ slate.plan.roster.transactions := by
  obtain ⟨candidate, hcandidate, hmember⟩ := ht
  have hmem : candidate ∈ reach.candidates slate.ties :=
    h.candidates_eq ▸ List.mem_of_getElem? hcandidate
  obtain ⟨⟨id, transaction⟩, htransaction, rfl⟩ :=
    List.mem_map.mp (Reach.candidates_members h.ties_eq candidate hmem t hmember)
  obtain rfl := h.reach_eq
  exact ⟨transaction, htransaction⟩

include hfollowed

theorem mem_usersOf_iff {c : Nat} {a : ActionId} : c ∈ slate.usersOf a ↔ slate.Involves c a := by
  obtain rfl := h.reach_eq
  rw [mem_usersOf h.candidates_eq]
  simp only [mem_holdersOf, hfollowed.carries_iff]
  unfold Involves Reaches Holds
  constructor
  · intro huses
    obtain ⟨t, ht, rfl | ⟨ids, hleads⟩⟩ := huses
    · exact .inl ht
    · exact .inr ⟨t, ids, ht, hleads⟩
  · intro hinvolves
    rcases hinvolves with ha | ⟨t, ids, ht, hleads⟩
    · exact ⟨a, ha, .inl rfl⟩
    · exact ⟨t, ht, .inr ⟨ids, hleads⟩⟩

/-- A candidate takes part in a method by reaching it. -/
theorem mem_usersOf_method_iff {c : Nat} {m : ActionId} {method : Action}
    (hm : (m, method) ∈ slate.plan.roster.methods) :
    c ∈ slate.usersOf m ↔ slate.Reaches c m := by
  rw [mem_usersOf_iff h hfollowed]
  refine ⟨fun hinvolves => hinvolves.resolve_left fun hholds => ?_, .inr⟩
  obtain ⟨transaction, ht⟩ := holds_transaction h hholds
  exact Roster.ne_of_mem ht hm rfl

/-! ### The four passes -/

omit hfollowed in
theorem mk_mem_memberClashes {c d : Nat} (hne : c ≠ d) {reason : Reason} :
    (⟨ordered c d, reason⟩ : Clash) ∈ slate.memberClashes ↔
      ∃ t, .sharedMember t = reason ∧ slate.Holds c t ∧ slate.Holds d t := by
  simp only [memberClashes, List.mem_flatMap, Prod.exists, mk_mem_clashesAmong hne, mem_holdersOf]
  constructor
  · intro hclash
    obtain ⟨t, transaction, -, hreason, hc, hd⟩ := hclash
    exact ⟨t, hreason, hc, hd⟩
  · intro hshared
    obtain ⟨t, hreason, hc, hd⟩ := hshared
    obtain ⟨transaction, ht⟩ := holds_transaction h hc
    exact ⟨t, transaction, ht, hreason, hc, hd⟩

omit hfollowed in
theorem mk_mem_alternativeClashes {c d : Nat} (hne : c ≠ d) {reason : Reason} :
    (⟨ordered c d, reason⟩ : Clash) ∈ slate.alternativeClashes ↔
      ∃ x y, .independent x y = reason ∧ x < y ∧ slate.reach.KeptApart x y ∧
        (slate.Holds c x ∧ slate.Holds d y ∨ slate.Holds d x ∧ slate.Holds c y) := by
  have hapart : ∀ x y, (x, y) ∈ slate.ties.apart ↔ x < y ∧ slate.reach.KeptApart x y := by
    intro x y
    rw [h.reach_eq]
    exact Reach.mem_ties_apart_iff h.ties_eq
  simp only [alternativeClashes, List.mem_flatMap, Prod.exists, mk_mem_clashesBetween hne,
    mem_holdersOf, hapart]
  constructor
  · intro hclash
    obtain ⟨x, y, ⟨hlt, hkept⟩, hreason, hsides⟩ := hclash
    exact ⟨x, y, hreason, hlt, hkept, hsides⟩
  · intro hkept
    obtain ⟨x, y, hreason, hlt, hkept, hsides⟩ := hkept
    exact ⟨x, y, ⟨hlt, hkept⟩, hreason, hsides⟩

theorem mk_mem_methodClashes {c d : Nat} (hne : c ≠ d) {reason : Reason} :
    (⟨ordered c d, reason⟩ : Clash) ∈ slate.methodClashes ↔
      ∃ m, .sharedMethod m = reason ∧ slate.IsExclusive m ∧
        slate.Reaches c m ∧ slate.Reaches d m := by
  simp only [methodClashes, List.mem_flatMap, Prod.exists, mk_mem_clashesAmong hne,
    exclusiveMethods, List.mem_filter, Bool.not_eq_true']
  constructor
  · intro hclash
    obtain ⟨m, method, ⟨hm, hexclusive⟩, hreason, hc, hd⟩ := hclash
    rw [mem_usersOf_method_iff h hfollowed hm] at hc hd
    exact ⟨m, hreason, ⟨method, hm, hexclusive⟩, hc, hd⟩
  · intro hshared
    obtain ⟨m, hreason, ⟨method, hm, hexclusive⟩, hc, hd⟩ := hshared
    refine ⟨m, method, ⟨hm, hexclusive⟩, hreason, ?_⟩
    rw [mem_usersOf_method_iff h hfollowed hm, mem_usersOf_method_iff h hfollowed hm]
    exact ⟨hc, hd⟩

theorem mk_mem_declaredClashes {c d : Nat} (hne : c ≠ d) {reason : Reason} :
    (⟨ordered c d, reason⟩ : Clash) ∈ slate.declaredClashes ↔
      ∃ relation ∈ slate.plan.couplings.relations, relation.isConflict = true ∧
        .explicit relation.start relation.finish = reason ∧
        (slate.Involves c relation.start ∧ slate.Involves d relation.finish ∨
          slate.Involves d relation.start ∧ slate.Involves c relation.finish) := by
  simp only [declaredClashes, List.mem_flatMap, List.mem_filter, mk_mem_clashesBetween hne,
    mem_usersOf_iff h hfollowed, and_assoc]

/-- **Clashes are exactly the reasons that the plan gives.** -/
theorem mk_mem_clashes_iff {c d : Nat} (hne : c ≠ d) {reason : Reason} :
    (⟨ordered c d, reason⟩ : Clash) ∈ slate.clashes ↔ slate.Justifies c d reason := by
  rw [mem_clashes, mk_mem_memberClashes h hne, mk_mem_alternativeClashes h hne,
    mk_mem_methodClashes h hfollowed hne, mk_mem_declaredClashes h hfollowed hne]
  cases reason with
  | explicit start finish => simp [Justifies, and_assoc]
  | sharedMethod m => simp [Justifies]
  | sharedMember t => simp [Justifies]
  | independent x y => simp [Justifies]

/-! ### Candidates that conflict with themselves -/

omit hfollowed in
theorem waysTo_nodup (hnodup : ∀ t, (reach.pathsOf t).Nodup) {candidate : Candidate}
    (hcandidate : candidate ∈ slate.candidates) (m : ActionId) :
    (slate.waysTo candidate m).Nodup := by
  have hmembers : candidate.members.Pairwise (· ≠ ·) :=
    (Reach.members_ascending h.ties_eq (h.candidates_eq ▸ hcandidate)).imp Nat.ne_of_lt
  refine List.nodup_flatMap.mpr ⟨fun t _ => ?_, hmembers.imp fun {t t'} hne => ?_⟩
  · rw [h.reach_eq]
    exact ((hnodup t).filter _).map fun path path' heq => (Prod.mk.inj heq).2
  · intro way hway hway'
    obtain ⟨path, -, rfl⟩ := List.mem_map.mp hway
    obtain ⟨path', -, heq⟩ := List.mem_map.mp hway'
    exact hne (Prod.mk.inj heq).1.symm

/-- A candidate is at fault if two ways lead from it to the method. -/
theorem doubleUse?_isSome_iff (hnodup : ∀ t, (reach.pathsOf t).Nodup) {method : ActionId × Action}
    {candidate : Candidate} (hcandidate : candidate ∈ slate.candidates) :
    (slate.doubleUse? method candidate).isSome ↔
      ∃ t ∈ candidate.members, ∃ t' ∈ candidate.members, ∃ ids ids',
        slate.plan.calls.Leads t ids method.1 ∧ slate.plan.calls.Leads t' ids' method.1 ∧
          (t, ids) ≠ (t', ids') := by
  have hlength : (slate.doubleUse? method candidate).isSome ↔
      1 < (slate.waysTo candidate method.1).length := by
    unfold doubleUse?
    dsimp only
    rw [tracesTo_eq, List.length_map]
    by_cases hmany : (slate.waysTo candidate method.1).length > 1
    · simp [hmany]
    · simp [hmany]
  have hway : ∀ t path, (t, path) ∈ slate.waysTo candidate method.1 ↔
      t ∈ candidate.members ∧ slate.plan.calls.Leads t path.sites path.method ∧
        path.method = method.1 := by
    intro t path
    rw [mem_waysTo, h.reach_eq, hfollowed.mem_pathsOf]
  rw [hlength, one_lt_length_iff (waysTo_nodup h hnodup hcandidate method.1)]
  constructor
  · intro htwo
    obtain ⟨⟨t, path⟩, hmem, ⟨t', path'⟩, hmem', hne⟩ := htwo
    obtain ⟨ht, hleads, hmethod⟩ := (hway t path).mp hmem
    obtain ⟨ht', hleads', hmethod'⟩ := (hway t' path').mp hmem'
    refine ⟨t, ht, t', ht', path.sites, path'.sites, hmethod ▸ hleads, hmethod' ▸ hleads', ?_⟩
    intro heq
    obtain ⟨hstart, hsites⟩ := Prod.mk.inj heq
    have hpaths : path = path' := by
      obtain ⟨m, ids⟩ := path
      obtain ⟨m', ids'⟩ := path'
      simp_all
    exact hne (by rw [hstart, hpaths])
  · intro htwo
    obtain ⟨t, ht, t', ht', ids, ids', hleads, hleads', hne⟩ := htwo
    refine ⟨(t, ⟨method.1, ids⟩), (hway _ _).mpr ⟨ht, hleads, rfl⟩, (t', ⟨method.1, ids'⟩),
      (hway _ _).mpr ⟨ht', hleads', rfl⟩, fun heq => hne ?_⟩
    obtain ⟨hstart, hpaths⟩ := Prod.mk.inj heq
    rw [hstart, (CallPath.mk.inj hpaths).2]

theorem bothEnds?_isSome_iff {relation : Relation} : (slate.bothEnds? relation).isSome ↔
    ∃ c, slate.Involves c relation.start ∧ slate.Involves c relation.finish := by
  simp only [← mem_usersOf_iff h hfollowed]
  unfold bothEnds?
  dsimp only
  split
  · rename_i hnone
    refine ⟨fun hsome => by simp at hsome, fun hboth => ?_⟩
    obtain ⟨c, hstart, hfinish⟩ := hboth
    exact absurd (List.contains_iff_mem.mpr hfinish) (List.find?_eq_none.mp hnone c hstart)
  · rename_i index hfind
    have hstart := List.mem_of_find?_eq_some hfind
    have hfinish := List.contains_iff_mem.mp (List.find?_some hfind)
    obtain ⟨candidate, hcandidate, -⟩ := mem_numbersOf.mp hstart
    refine ⟨fun _ => ⟨index, hstart, hfinish⟩, fun _ => ?_⟩
    rw [candidate?, hcandidate]
    rfl

/-- **A self-conflict is found exactly if there is one.** -/
theorem selfConflict?_isSome_iff (hnodup : ∀ t, (reach.pathsOf t).Nodup) :
    slate.selfConflict?.isSome ↔ slate.SelfConflicting := by
  have hdoubled : (slate.exclusiveMethods.findSome? fun method =>
      slate.candidates.findSome? (slate.doubleUse? method)).isSome ↔
        ∃ candidate ∈ slate.candidates, ∃ m, slate.IsExclusive m ∧
          ∃ t ∈ candidate.members, ∃ t' ∈ candidate.members, ∃ ids ids',
            slate.plan.calls.Leads t ids m ∧ slate.plan.calls.Leads t' ids' m ∧
              (t, ids) ≠ (t', ids') := by
    simp only [List.findSome?_isSome_iff]
    constructor
    · intro hsome
      obtain ⟨⟨m, method⟩, hmethod, candidate, hcandidate, hdouble⟩ := hsome
      obtain ⟨hm, hexclusive⟩ := List.mem_filter.mp hmethod
      exact ⟨candidate, hcandidate, m, ⟨method, hm, by simpa using hexclusive⟩,
        (doubleUse?_isSome_iff h hfollowed hnodup hcandidate).mp hdouble⟩
    · intro htwo
      obtain ⟨candidate, hcandidate, m, ⟨method, hm, hexclusive⟩, hways⟩ := htwo
      exact ⟨(m, method), List.mem_filter.mpr ⟨hm, by simp [hexclusive]⟩, candidate, hcandidate,
        (doubleUse?_isSome_iff h hfollowed hnodup hcandidate).mpr hways⟩
  unfold selfConflict? SelfConflicting
  dsimp only
  rw [← hdoubled]
  split
  · rename_i fault hfault
    simp [hfault]
  · rename_i hnone
    rw [hnone, List.findSome?_isSome_iff]
    simp only [List.mem_filter, bothEnds?_isSome_iff h hfollowed, Option.isSome_none,
      Bool.false_eq_true, false_or, and_assoc]

end Drawn

theorem selfConflict?_isFault {fault : Fault} (h : slate.selfConflict? = some fault) :
    ∃ candidate chain, fault = .selfConflict candidate chain := by
  unfold selfConflict? at h
  dsimp only at h
  split at h
  · rename_i found hfound
    cases h
    obtain ⟨method, -, hmethod⟩ := List.exists_of_findSome?_eq_some hfound
    obtain ⟨candidate, -, hdouble⟩ := List.exists_of_findSome?_eq_some hmethod
    unfold doubleUse? at hdouble
    dsimp only at hdouble
    split at hdouble
    · exact ⟨_, _, (Option.some.inj hdouble).symm⟩
    · cases hdouble
  · obtain ⟨relation, -, hboth⟩ := List.exists_of_findSome?_eq_some h
    unfold bothEnds? at hboth
    dsimp only at hboth
    split at hboth
    · cases hboth
    · obtain ⟨candidate, -, rfl⟩ := Option.map_eq_some_iff.mp hboth
      exact ⟨_, _, rfl⟩

end Slate

namespace Contention

variable {reach : Reach} {contention : Contention}

/-- Conflicts are those that the plan gives reason for, and each is listed with all reasons. -/
structure Justified (contention : Contention) : Prop where
  symm : ∀ a b, contention.inConflict a b = contention.inConflict b a
  irrefl : ∀ a, contention.inConflict a a = false
  mem_edges : ∀ a b, (a, b) ∈ contention.edges ↔ a < b ∧ contention.inConflict a b = true
  edges_once : contention.edges.Nodup
  reasons_ne_nil : ∀ a b, (a, b) ∈ contention.edges → contention.reasons a b ≠ []
  mem_reasons : ∀ a b, a ≠ b → ∀ reason,
    reason ∈ contention.reasons a b ↔ contention.slate.Justifies a b reason
  reasons_once : ∀ a b, (contention.reasons a b).Nodup

theorem mem_reasons_iff {a b : Nat} {reason : Reason} : reason ∈ contention.reasons a b ↔
    (⟨ordered a b, reason⟩ : Clash) ∈ contention.clashes := by
  simp only [reasons, List.mem_map, List.mem_filter, beq_iff_eq]
  constructor
  · intro hmem
    obtain ⟨⟨edge, r⟩, ⟨hclash, rfl⟩, rfl⟩ := hmem
    exact hclash
  · intro hclash
    exact ⟨_, ⟨hclash, rfl⟩, rfl⟩

theorem inConflict_iff_reasons {a b : Nat} :
    contention.inConflict a b = true ↔ contention.reasons a b ≠ [] := by
  simp only [inConflict_iff, ← mem_reasons_iff]
  constructor
  · intro hreason
    obtain ⟨reason, hmem⟩ := hreason
    exact List.ne_nil_of_mem hmem
  · exact List.exists_mem_of_ne_nil _

namespace WorkedOut

variable (h : WorkedOut reach contention)
include h

theorem drawn : contention.slate.Drawn reach := ⟨h.reach_eq, h.ties_eq, h.candidates_eq⟩

theorem mem_edges_iff {a b : Nat} :
    (a, b) ∈ contention.edges ↔ a < b ∧ contention.inConflict a b = true := by
  have hpairs := pairLt_separating natLt_separating natLt_separating
  simp only [edges, mem_ascending hpairs, List.mem_map, inConflict_iff]
  constructor
  · intro hmem
    obtain ⟨⟨edge, reason⟩, hclash, rfl⟩ := hmem
    obtain ⟨c, d, hne, hedge⟩ := Slate.isEdge_of_mem_clashes (h.clashes_eq ▸ hclash)
    change (a, b) = ordered c d at hedge
    have hordered : ordered a b = (a, b) := by
      have htwice := ordered_ordered c d
      rwa [← hedge] at htwice
    refine ⟨?_, reason, hordered ▸ hclash⟩
    have hle := ordered_eq_self_iff.mp hordered
    have hab : a ≠ b := by
      intro heq
      rw [← hordered, ordered_eq_iff] at hedge
      omega
    omega
  · intro hconflict
    obtain ⟨hlt, reason, hclash⟩ := hconflict
    rw [ordered_of_le (Nat.le_of_lt hlt)] at hclash
    exact ⟨_, hclash, rfl⟩

theorem reasons_nodup (a b : Nat) : (contention.reasons a b).Nodup := by
  have hclashes : contention.clashes.Nodup := by
    rw [h.clashes_eq]
    exact nodup_of_pairwise Clash.lt_ranking (ascending_pairwise Clash.lt_ranking _)
  refine List.Nodup.map_on ?_ (hclashes.filter _)
  intro clash hclash other hother hreason
  have hedge := (List.mem_filter.mp hclash).2
  have hedge' := (List.mem_filter.mp hother).2
  rw [beq_iff_eq] at hedge hedge'
  obtain ⟨edge, reason⟩ := clash
  obtain ⟨edge', reason'⟩ := other
  simp_all

theorem justified (hfollowed : Reach.Followed contention.slate.plan reach) :
    contention.Justified where
  symm := inConflict_comm
  irrefl := h.inConflict_self
  mem_edges := fun a b => h.mem_edges_iff
  edges_once :=
    have hranking := pairLt_ranking natLt_ranking natLt_ranking
    nodup_of_pairwise hranking (ascending_pairwise hranking _)
  reasons_ne_nil := fun a b hedge => inConflict_iff_reasons.mp (h.mem_edges_iff.mp hedge).2
  mem_reasons := by
    intro a b hne reason
    rw [mem_reasons_iff, h.clashes_eq]
    exact Slate.mk_mem_clashes_iff h.drawn hfollowed hne
  reasons_once := h.reasons_nodup

end WorkedOut

/-- Contention goes wrong after the candidates are found if one of them conflicts with itself, or
if preferences run in a circle. -/
theorem ofReach_eq {slate : Slate} (hslate : Slate.ofReach reach = .ok slate) :
    ofReach reach = match slate.selfConflict? with
      | some fault => .error fault
      | none =>
        match Precedence.arrange slate.size slate.priorities with
        | .error circle => .error (.priorityCycle (circle.map (nameIn slate)))
        | .ok order =>
          .ok { slate, clashes := slate.clashes, priorities := slate.priorities, order,
                warnings := slate.warnings } := by
  unfold ofReach
  rw [hslate]
  rfl

/-- **Conflicts are exact.**  Once the candidates of a plan are found, the contention is refused
for a self-conflict exactly if some candidate has one; and a contention that is answered holds the
conflicts that the plan gives reason for, each with all of its reasons. -/
theorem conflicts_exact {plan : Plan} (hreach : Reach.ofPlan plan = .ok reach) {slate : Slate}
    (hslate : Slate.ofReach reach = .ok slate) :
    ((∃ candidate chain, ofReach reach = .error (.selfConflict candidate chain)) ↔
        slate.SelfConflicting) ∧
      ∀ contention, ofReach reach = .ok contention →
        contention.slate = slate ∧ contention.Justified := by
  have hdrawn := Slate.ofReach_drawn hslate
  have hfollowed := Reach.ofPlan_followed hreach
  have hplan : slate.plan = plan := by rw [Slate.plan, hdrawn.reach_eq, hfollowed.plan_eq]
  rw [← hplan] at hfollowed
  refine ⟨?_, fun contention hcontention => ?_⟩
  · rw [← Slate.selfConflict?_isSome_iff hdrawn hfollowed (Reach.ofPlan_nodup hreach),
      ofReach_eq hslate]
    cases hself : slate.selfConflict? with
    | some fault =>
        obtain ⟨candidate, chain, rfl⟩ := Slate.selfConflict?_isFault hself
        simp
    | none =>
        cases Precedence.arrange slate.size slate.priorities <;> simp
  · have hsame : contention.slate = slate := by
      rw [ofReach_eq hslate] at hcontention
      split at hcontention
      · cases hcontention
      · split at hcontention
        · cases hcontention
        · cases hcontention
          rfl
    refine ⟨hsame, (ofReach_workedOut hcontention).justified ?_⟩
    rw [hsame]
    exact hfollowed

/-- A clock runs with a reader or with a writer, who share a port; no maintenance meanwhile. -/
def portPlan : Plan where
  blocks := .empty
  roster := (crew ["reader", "writer", "maintainer", "clock"]).push
    ⟨"port", "port", none, 0, 0, .method ⟨.empty, .empty, false, false, none, none⟩⟩
  calls := ⟨#[⟨0, 4, 0, .empty⟩, ⟨1, 4, 0, .empty⟩]⟩
  couplings := ⟨[.conflict 2 4 .right], [(3, 0), (3, 1)], [(0, 1)], []⟩

theorem portPlan_conflicts : ∃ reach slate contention, Reach.ofPlan portPlan = .ok reach ∧
    Slate.ofReach reach = .ok slate ∧ ofReach reach = .ok contention ∧
    contention.edges = [(0, 1), (0, 2), (1, 2)] ∧
    contention.reasons 0 1 = [.sharedMethod 4, .sharedMember 3, .independent 0 1] ∧
    contention.reasons 1 2 = [.explicit 2 4] ∧
    ¬ slate.SelfConflicting ∧ contention.Justified := by
  have hpasses : passes portPlan (fun contention =>
      contention.edges == [(0, 1), (0, 2), (1, 2)] &&
        contention.reasons 0 1 == [.sharedMethod 4, .sharedMember 3, .independent 0 1] &&
        contention.reasons 1 2 == [.explicit 2 4]) = true := by
    decide +kernel
  obtain ⟨reach, contention, hreach, hcontention, hfound⟩ := exists_of_passes hpasses
  simp only [Bool.and_eq_true, beq_iff_eq] at hfound
  obtain ⟨⟨hedges, hreasons⟩, hreasons'⟩ := hfound
  obtain ⟨slate, hslate, -⟩ := bind_eq_ok_iff.mp hcontention
  obtain ⟨hself, hexact⟩ := conflicts_exact hreach hslate
  refine ⟨reach, slate, contention, hreach, hslate, hcontention, hedges, hreasons, hreasons', ?_,
    (hexact contention hcontention).2⟩
  intro hconflicting
  obtain ⟨candidate, chain, herror⟩ := hself.mpr hconflicting
  rw [hcontention] at herror
  cases herror

end Contention

end Interlock
