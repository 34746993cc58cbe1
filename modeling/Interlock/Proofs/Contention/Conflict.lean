/-
What conflicts, and what a candidate never holds.

Two different candidates conflict if they hold alternatives, take part in one exclusive method, or
take part in the two ends of a declared conflict.  A single candidate holds no alternatives, takes
part in no two ends, and has one way to an exclusive method at most, or else the contention would
not have been answered.
-/
import Interlock.Contention.Basic
import Interlock.Proofs.Answer
import Interlock.Proofs.Contention.Candidate
import Interlock.Proofs.Contention.Precedence

namespace Interlock

/-! ### Clashes -/

theorem Reason.key_injective (a b : Reason) (h : a.key = b.key) : a = b := by
  cases a <;> cases b <;> simp_all [Reason.key]

theorem Clash.lt_ranking : Ranking Clash.lt := by
  refine keyLt_ranking ?_ ?_
  · exact pairLt_ranking (pairLt_ranking natLt_ranking natLt_ranking)
      (listLt_ranking natLt_ranking)
  · intro a b h
    obtain ⟨hedge, hkey⟩ := Prod.mk.inj h
    exact congrArg₂ Clash.mk hedge (Reason.key_injective _ _ hkey)

namespace Slate

variable {slate : Slate} {reason : Reason} {these those : List Nat}

theorem mem_clashesBetween {clash : Clash} : clash ∈ clashesBetween reason these those ↔
    ∃ c ∈ these, ∃ d ∈ those, d ≠ c ∧ (⟨ordered c d, reason⟩ : Clash) = clash := by
  simp only [clashesBetween, List.mem_flatMap, List.mem_map, List.mem_filter, bne_iff_ne,
    and_assoc]

theorem mem_clashesAmong_of_ne {c d : Nat} (hc : c ∈ these) (hd : d ∈ these) (hne : c ≠ d) :
    ⟨ordered c d, reason⟩ ∈ clashesAmong reason these := by
  unfold clashesAmong
  rcases mem_pairs_or hc hd hne with h | h
  · exact List.mem_map.mpr ⟨_, h, rfl⟩
  · refine List.mem_map.mpr ⟨_, h, ?_⟩
    rw [ordered_comm]

theorem mem_clashes {clash : Clash} : clash ∈ slate.clashes ↔
    clash ∈ slate.memberClashes ∨ clash ∈ slate.alternativeClashes ∨
      clash ∈ slate.methodClashes ∨ clash ∈ slate.declaredClashes := by
  simp only [clashes, mem_ascending Clash.lt_ranking.separating, List.mem_append, or_assoc]

/-- The ends of a clash. -/
def IsEdge (edge : Nat × Nat) : Prop := ∃ c d : Nat, c ≠ d ∧ edge = ordered c d

theorem isEdge_of_mem_clashesBetween {clash : Clash}
    (h : clash ∈ clashesBetween reason these those) : IsEdge clash.edge := by
  obtain ⟨c, -, d, -, hne, rfl⟩ := mem_clashesBetween.mp h
  exact ⟨c, d, hne.symm, rfl⟩

theorem isEdge_of_mem_clashesAmong {clash : Clash} (hnodup : these.Nodup)
    (h : clash ∈ clashesAmong reason these) : IsEdge clash.edge := by
  obtain ⟨⟨c, d⟩, hcd, rfl⟩ := List.mem_map.mp h
  exact ⟨c, d, ne_of_mem_pairs hnodup hcd, rfl⟩

/-- No candidate clashes with itself. -/
theorem isEdge_of_mem_clashes {clash : Clash} (h : clash ∈ slate.clashes) :
    IsEdge clash.edge := by
  rcases mem_clashes.mp h with h | h | h | h
  · obtain ⟨t, -, h⟩ := List.mem_flatMap.mp h
    exact isEdge_of_mem_clashesAmong (numbersOf_nodup _) h
  · obtain ⟨pair, -, h⟩ := List.mem_flatMap.mp h
    exact isEdge_of_mem_clashesBetween h
  · obtain ⟨m, -, h⟩ := List.mem_flatMap.mp h
    exact isEdge_of_mem_clashesAmong (numbersOf_nodup _) h
  · obtain ⟨relation, -, h⟩ := List.mem_flatMap.mp h
    exact isEdge_of_mem_clashesBetween h

/-! ### Ways to a method -/

/-- The ways in which a candidate comes to a method: a member, and its call path. -/
def waysTo (slate : Slate) (candidate : Candidate) (method : ActionId) :
    List (ActionId × CallPath) :=
  candidate.members.flatMap fun member =>
    ((slate.reach.pathsOf member).filter (·.method == method)).map (member, ·)

theorem mem_waysTo {candidate : Candidate} {method t : ActionId} {path : CallPath} :
    (t, path) ∈ slate.waysTo candidate method ↔
      t ∈ candidate.members ∧ path ∈ slate.reach.pathsOf t ∧ path.method = method := by
  simp only [waysTo, List.mem_flatMap, List.mem_map, List.mem_filter, beq_iff_eq, Prod.mk.injEq]
  constructor
  · rintro ⟨member, hmember, p, hp, rfl, rfl⟩
    exact ⟨hmember, hp⟩
  · rintro ⟨ht, hpath⟩
    exact ⟨t, ht, path, hpath, rfl, rfl⟩

theorem tracesTo_eq (candidate : Candidate) (method : ActionId) :
    slate.tracesTo candidate method =
      (slate.waysTo candidate method).map fun way => slate.reach.trace way.1 way.2 := by
  simp only [tracesTo, waysTo, List.map_flatMap, List.map_map]
  rfl

/-- Of a list of one element at most, all elements are the same. -/
theorem eq_of_length_le_one {α : Type} {l : List α} (hl : l.length ≤ 1) {a b : α} (ha : a ∈ l)
    (hb : b ∈ l) : a = b := by
  match l, hl with
  | [x], _ => rw [List.mem_singleton.mp ha, List.mem_singleton.mp hb]

theorem selfConflict_eq_none (h : slate.selfConflict? = none) :
    (∀ method ∈ slate.exclusiveMethods, ∀ candidate ∈ slate.candidates,
      slate.doubleUse? method candidate = none) ∧
    ∀ relation ∈ slate.plan.couplings.relations, relation.isConflict = true →
      slate.bothEnds? relation = none := by
  unfold selfConflict? at h
  dsimp only at h
  split at h
  · cases h
  · rename_i hdoubled
    refine ⟨fun method hmethod => ?_, fun relation hrelation hconflict => ?_⟩
    · exact List.findSome?_eq_none_iff.mp (List.findSome?_eq_none_iff.mp hdoubled method hmethod)
    · exact List.findSome?_eq_none_iff.mp h relation (List.mem_filter.mpr ⟨hrelation, hconflict⟩)

/-- A candidate comes to an exclusive method in one way at most. -/
theorem way_unique (h : slate.selfConflict? = none) {method : ActionId × Action}
    (hmethod : method ∈ slate.exclusiveMethods) {candidate : Candidate}
    (hcandidate : candidate ∈ slate.candidates) {w w' : ActionId × CallPath}
    (hw : w ∈ slate.waysTo candidate method.1) (hw' : w' ∈ slate.waysTo candidate method.1) :
    w = w' := by
  have hnone := (selfConflict_eq_none h).1 method hmethod candidate hcandidate
  unfold doubleUse? at hnone
  dsimp only at hnone
  split at hnone
  · cases hnone
  · rename_i hlength
    rw [tracesTo_eq, List.length_map] at hlength
    exact eq_of_length_le_one (by omega) hw hw'

/-- No candidate takes part in both ends of a declared conflict. -/
theorem not_both_ends (h : slate.selfConflict? = none) {relation : Relation}
    (hrelation : relation ∈ slate.plan.couplings.relations) (hconflict : relation.isConflict = true)
    {c : Nat} (hstart : c ∈ slate.usersOf relation.start) : c ∉ slate.usersOf relation.finish := by
  intro hfinish
  have hnone := (selfConflict_eq_none h).2 relation hrelation hconflict
  unfold bothEnds? at hnone
  dsimp only at hnone
  split at hnone
  · rename_i hfind
    exact List.find?_eq_none.mp hfind c hstart (by simpa using hfinish)
  · rename_i index hfind
    obtain ⟨candidate, hindex, -⟩ := mem_numbersOf.mp (List.mem_of_find?_eq_some hfind)
    rw [candidate?, hindex] at hnone
    cases hnone

end Slate

/-! ### Contention -/

namespace Contention

variable {reach : Reach} {contention : Contention}

/-- What is known of the contention between the candidates of a plan. -/
structure WorkedOut (reach : Reach) (contention : Contention) : Prop where
  reach_eq : contention.slate.reach = reach
  ties_eq : reach.ties = .ok contention.slate.ties
  candidates_eq : contention.slate.candidates = reach.candidates contention.slate.ties
  consistent : contention.slate.selfConflict? = none
  clashes_eq : contention.clashes = contention.slate.clashes
  order_perm : contention.order.Perm (List.range contention.size)

/-- **Contention is answered only if it is worked out.** -/
theorem ofReach_workedOut (h : ofReach reach = .ok contention) : WorkedOut reach contention := by
  unfold ofReach at h
  obtain ⟨slate, hslate, h⟩ := bind_eq_ok_iff.mp h
  obtain ⟨ties, hties, hpure⟩ := bind_eq_ok_iff.mp hslate
  cases hpure
  split at h
  · cases h
  · rename_i hself
    split at h
    · cases h
    · rename_i order horder
      cases h
      exact ⟨rfl, hties, rfl, hself, rfl, Precedence.arrange_perm horder⟩

theorem inConflict_iff {a b : Nat} : contention.inConflict a b = true ↔
    ∃ reason, (⟨ordered a b, reason⟩ : Clash) ∈ contention.clashes := by
  simp only [inConflict, List.any_eq_true, beq_iff_eq]
  constructor
  · rintro ⟨⟨edge, reason⟩, hmem, rfl⟩
    exact ⟨reason, hmem⟩
  · rintro ⟨reason, hmem⟩
    exact ⟨_, hmem, rfl⟩

theorem inConflict_comm (a b : Nat) : contention.inConflict a b = contention.inConflict b a := by
  unfold inConflict
  rw [ordered_comm]

/-- The candidate holds an alternative of the transaction. -/
def Bars (contention : Contention) (c : Nat) (t : ActionId) : Prop :=
  ∃ z, c ∈ contention.holdersOf z ∧ ordered z t ∈ contention.independent

namespace WorkedOut

variable (h : WorkedOut reach contention)
include h

theorem inConflict_self (c : Nat) : contention.inConflict c c = false := by
  refine Bool.eq_false_iff.mpr fun hc => ?_
  obtain ⟨reason, hclash⟩ := inConflict_iff.mp hc
  rw [h.clashes_eq] at hclash
  obtain ⟨a, b, hne, hedge⟩ := Slate.isEdge_of_mem_clashes hclash
  rw [ordered_eq_iff] at hedge
  omega

theorem mem_usersOf {a : ActionId} {c : Nat} : c ∈ contention.usersOf a ↔
    ∃ t, c ∈ contention.holdersOf t ∧ reach.Carries t a := by
  obtain rfl := h.reach_eq
  exact Slate.mem_usersOf h.candidates_eq

/-- No candidate holds two alternatives. -/
theorem not_both_apart {x y : ActionId} (hxy : (x, y) ∈ contention.independent) {c : Nat}
    (hx : c ∈ contention.holdersOf x) : c ∉ contention.holdersOf y := by
  intro hy
  obtain ⟨candidate, hmem, hmember, hmember'⟩ := Slate.exists_holder hx hy
  rw [h.candidates_eq] at hmem
  obtain ⟨hordered, hne⟩ := Reach.ordered_of_mem_apart h.ties_eq hxy
  have hfree := Reach.candidates_compatible h.ties_eq candidate hmem x hmember y hmember' hne
  unfold Ties.separates at hfree
  rw [hordered] at hfree
  exact Bool.eq_false_iff.mp hfree (List.contains_iff_mem.mpr hxy)

/-- A candidate holds whoever is tied to one that it holds, or else bars it. -/
theorem holds_partner {x y : ActionId} {c : Nat} (hx : c ∈ contention.holdersOf x)
    (hxy : y ∈ contention.slate.ties.partners x) :
    c ∈ contention.holdersOf y ∨ contention.Bars c y := by
  obtain ⟨candidate, hc, hmember⟩ := Slate.mem_holdersOf.mp hx
  have hmem : candidate ∈ reach.candidates contention.slate.ties :=
    h.candidates_eq ▸ List.mem_of_getElem? hc
  rcases Reach.candidates_closed h.ties_eq candidate hmem x hmember y hxy with hy | hblocked
  · exact .inl (Slate.mem_holdersOf.mpr ⟨candidate, hc, hy⟩)
  · obtain ⟨z, hz, hseparates⟩ := hblocked
    exact .inr ⟨z, Slate.mem_holdersOf.mpr ⟨candidate, hc, hz⟩, List.contains_iff_mem.mp hseparates⟩

/-- Candidates that hold alternatives conflict. -/
theorem conflict_of_apart {x y : ActionId} (hxy : (x, y) ∈ contention.independent) {c d : Nat}
    (hc : c ∈ contention.holdersOf x) (hd : d ∈ contention.holdersOf y) :
    contention.inConflict c d = true := by
  have hne : d ≠ c := by
    rintro rfl
    exact h.not_both_apart hxy hc hd
  refine inConflict_iff.mpr ⟨.independent x y, ?_⟩
  rw [h.clashes_eq]
  refine Slate.mem_clashes.mpr (.inr (.inl (List.mem_flatMap.mpr ⟨_, hxy, ?_⟩)))
  exact Slate.mem_clashesBetween.mpr ⟨c, hc, d, hd, hne, rfl⟩

/-- Candidates that take part in one exclusive method conflict. -/
theorem conflict_of_users {m : ActionId} {method : Action}
    (hm : (m, method) ∈ reach.plan.roster.methods) (hexclusive : method.isNonexclusive = false)
    {c d : Nat} (hc : c ∈ contention.usersOf m) (hd : d ∈ contention.usersOf m) (hne : c ≠ d) :
    contention.inConflict c d = true := by
  obtain rfl := h.reach_eq
  refine inConflict_iff.mpr ⟨.sharedMethod m, ?_⟩
  rw [h.clashes_eq]
  refine Slate.mem_clashes.mpr (.inr (.inr (.inl (List.mem_flatMap.mpr ⟨(m, method), ?_, ?_⟩))))
  · exact List.mem_filter.mpr ⟨hm, by simp [hexclusive]⟩
  · exact Slate.mem_clashesAmong_of_ne hc hd hne

/-- Candidates that take part in the ends of a declared conflict conflict, and are never the
same. -/
theorem conflict_of_ends {relation : Relation}
    (hrelation : relation ∈ reach.plan.couplings.relations)
    (hconflict : relation.isConflict = true) {c d : Nat}
    (hc : c ∈ contention.usersOf relation.start) (hd : d ∈ contention.usersOf relation.finish) :
    contention.inConflict c d = true := by
  obtain rfl := h.reach_eq
  have hne : d ≠ c := by
    rintro rfl
    exact Slate.not_both_ends h.consistent hrelation hconflict hc hd
  refine inConflict_iff.mpr ⟨.explicit relation.start relation.finish, ?_⟩
  rw [h.clashes_eq]
  refine Slate.mem_clashes.mpr (.inr (.inr (.inr (List.mem_flatMap.mpr ⟨relation, ?_, ?_⟩))))
  · exact List.mem_filter.mpr ⟨hrelation, hconflict⟩
  · exact Slate.mem_clashesBetween.mpr ⟨c, hc, d, hd, hne, rfl⟩

/-- Within one candidate there is one way to an exclusive method at most. -/
theorem way_unique {m : ActionId} {method : Action}
    (hm : (m, method) ∈ reach.plan.roster.methods) (hexclusive : method.isNonexclusive = false)
    {c : Nat} {t t' : ActionId} (ht : c ∈ contention.holdersOf t)
    (ht' : c ∈ contention.holdersOf t') {path path' : CallPath} (hpath : path ∈ reach.pathsOf t)
    (hmethod : path.method = m) (hpath' : path' ∈ reach.pathsOf t') (hmethod' : path'.method = m) :
    t = t' ∧ path = path' := by
  obtain rfl := h.reach_eq
  obtain ⟨candidate, hcandidate, hmember, hmember'⟩ := Slate.exists_holder ht ht'
  have hmem : (m, method) ∈ contention.slate.exclusiveMethods :=
    List.mem_filter.mpr ⟨hm, by simp [hexclusive]⟩
  have hway := Slate.way_unique h.consistent hmem hcandidate
    (Slate.mem_waysTo.mpr ⟨hmember, hpath, hmethod⟩)
    (Slate.mem_waysTo.mpr ⟨hmember', hpath', hmethod'⟩)
  exact Prod.mk.inj hway

end WorkedOut

end Contention

end Interlock
