/-
Which candidate holds which of two alternatives.

That two candidates hold alternatives is recorded with the alternative declared first in front, and
the candidates are numbered by their members.  The two orders may differ: the first candidate may
hold the alternative declared second, if it has another member that was declared before both.  Then,
and only then, the reason names the alternatives in the wrong order; a first candidate of a single
member is always named right.
-/
import Interlock.Proofs.Contention.Clashes

namespace Interlock

/-- The first candidate holds the first transaction, and the second candidate the second. -/
def Slate.HoldInTurn (slate : Slate) (c d : Nat) (x y : ActionId) : Prop :=
  slate.Holds c x ∧ slate.Holds d y

/-- Of two ascending lists, the one that comes first has an entry before any that it lacks of the
other. -/
theorem exists_mem_lt_of_lt {as bs : List Nat} (hbs : bs.Pairwise (· < ·)) (hlt : as < bs)
    (hne : as ≠ []) {x : Nat} (hx : x ∈ bs) (hlacks : x ∉ as) : ∃ t ∈ as, t < x := by
  obtain ⟨first, rest, rfl⟩ := List.exists_cons_of_ne_nil hne
  obtain ⟨first', rest', rfl⟩ := List.exists_cons_of_ne_nil (List.ne_nil_of_mem hx)
  have hle : first ≤ first' := by
    rcases List.cons_lt_cons_iff.mp hlt with hlt | ⟨heq, -⟩
    · exact Nat.le_of_lt hlt
    · exact Nat.le_of_eq heq
  have hle' : first' ≤ x := by
    rcases List.mem_cons.mp hx with rfl | hx
    · exact Nat.le_refl _
    · exact Nat.le_of_lt (List.rel_of_pairwise_cons hbs hx)
  refine ⟨first, List.mem_cons_self .., Nat.lt_of_le_of_ne (Nat.le_trans hle hle') ?_⟩
  rintro rfl
  exact hlacks (List.mem_cons_self ..)

namespace Contention

variable {plan : Plan} {reach : Reach} {contention : Contention} {a b : Nat} {x y : ActionId}

namespace WorkedOut

variable (h : WorkedOut reach contention)
include h

/-- No candidate holds two transactions that are kept apart. -/
theorem not_holds_both (hlt : x < y) (hapart : reach.KeptApart x y)
    (hx : contention.slate.Holds a x) : ¬ contention.slate.Holds a y := by
  have hmem : (x, y) ∈ contention.independent :=
    (Reach.mem_ties_apart_iff h.ties_eq).mpr ⟨hlt, hapart⟩
  intro hy
  exact h.not_both_apart hmem (Slate.mem_holdersOf.mpr hx) (Slate.mem_holdersOf.mpr hy)

/-- A candidate has a member before any that it lacks of a later candidate. -/
theorem exists_holds_lt (hab : a < b) (hy : contention.slate.Holds a y)
    (hx : contention.slate.Holds b x) (hlacks : ¬ contention.slate.Holds a x) :
    ∃ t, contention.slate.Holds a t ∧ t < x := by
  obtain ⟨c, hc, hmember⟩ := hy
  obtain ⟨d, hd, hmember'⟩ := hx
  have hsorted : c.members < d.members := by
    obtain ⟨ha, rfl⟩ := List.getElem?_eq_some_iff.mp hc
    obtain ⟨hb, rfl⟩ := List.getElem?_eq_some_iff.mp hd
    exact List.pairwise_iff_getElem.mp h.candidates_sorted a b ha hb hab
  have hnot : x ∉ c.members := fun hmem => hlacks ⟨c, hc, hmem⟩
  obtain ⟨t, ht, hlt⟩ := exists_mem_lt_of_lt (h.members_ascending (List.mem_of_getElem? hd))
    hsorted (List.ne_nil_of_mem hmember) hmember' hnot
  exact ⟨t, ⟨c, hc, ht⟩, hlt⟩

end WorkedOut

theorem independent_mem_reasons_iff (hreach : Reach.ofPlan plan = .ok reach)
    (hcontention : ofReach reach = .ok contention) (hab : a ≠ b) :
    .independent x y ∈ contention.reasons a b ↔ x < y ∧ reach.KeptApart x y ∧
      (contention.slate.HoldInTurn a b x y ∨ contention.slate.HoldInTurn a b y x) := by
  have h := ofReach_workedOut hcontention
  have hfollowed : Reach.Followed contention.slate.plan reach := by
    have hfollowed := Reach.ofPlan_followed hreach
    rwa [Slate.plan, h.reach_eq, hfollowed.plan_eq]
  obtain rfl := h.reach_eq
  rw [(h.justified hfollowed).mem_reasons a b hab]
  unfold Slate.HoldInTurn
  rw [and_comm (a := contention.slate.Holds a y)]
  exact Iff.rfl

/-- **A reason names alternatives by their candidates, unless they are crossed.**  For two
candidates, the smaller number first, two alternatives are recorded in the order of declaration.
The first candidate holds the first of them and the second candidate the second, except just where
the two are held crosswise; then the first candidate has another member that was declared before
both. -/
theorem sides_named_unless_crossed (hreach : Reach.ofPlan plan = .ok reach)
    (hcontention : ofReach reach = .ok contention) (hab : a < b) :
    (.independent x y ∈ contention.reasons a b ∧ contention.slate.HoldInTurn a b x y ↔
      x < y ∧ reach.KeptApart x y ∧ contention.slate.HoldInTurn a b x y) ∧
    (.independent x y ∈ contention.reasons a b ∧ ¬ contention.slate.HoldInTurn a b x y ↔
      x < y ∧ reach.KeptApart x y ∧ contention.slate.HoldInTurn a b y x) ∧
    (.independent x y ∈ contention.reasons a b → ¬ contention.slate.HoldInTurn a b x y →
      ∃ t, contention.slate.Holds a t ∧ t < x) := by
  have h := ofReach_workedOut hcontention
  have hreason :=
    independent_mem_reasons_iff (x := x) (y := y) hreach hcontention (Nat.ne_of_lt hab)
  have hcrossed : .independent x y ∈ contention.reasons a b →
      ¬ contention.slate.HoldInTurn a b x y →
        x < y ∧ reach.KeptApart x y ∧ contention.slate.HoldInTurn a b y x := by
    intro hmem hnot
    obtain ⟨hlt, hapart, hsides⟩ := hreason.mp hmem
    exact ⟨hlt, hapart, hsides.resolve_left hnot⟩
  refine ⟨⟨fun ⟨hmem, hsides⟩ => ?_, fun ⟨hlt, hapart, hsides⟩ => ?_⟩,
    ⟨fun ⟨hmem, hnot⟩ => hcrossed hmem hnot, fun ⟨hlt, hapart, hsides⟩ => ?_⟩,
    fun hmem hnot => ?_⟩
  · obtain ⟨hlt, hapart, -⟩ := hreason.mp hmem
    exact ⟨hlt, hapart, hsides⟩
  · exact ⟨hreason.mpr ⟨hlt, hapart, .inl hsides⟩, hsides⟩
  · refine ⟨hreason.mpr ⟨hlt, hapart, .inr hsides⟩, fun hright => ?_⟩
    exact h.not_holds_both hlt hapart hright.1 hsides.1
  · obtain ⟨hlt, hapart, hy, hx⟩ := hcrossed hmem hnot
    have hlacks : ¬ contention.slate.Holds a x := fun hx' => h.not_holds_both hlt hapart hx' hy
    exact h.exists_holds_lt hab hy hx hlacks

/-- A reader works from the left or from the right; a keeper goes with the right one. -/
def keeperPlan : Plan where
  blocks := .empty
  roster := crew ["keeper", "left", "reader", "right"]
  calls := .empty
  couplings := ⟨[], [(2, 1), (2, 3), (0, 3)], [(1, 3)], []⟩

/-- The candidates of the keeper's plan, and why they conflict. -/
theorem exists_keeper_contention : ∃ reach contention, Reach.ofPlan keeperPlan = .ok reach ∧
    ofReach reach = .ok contention ∧ contention.candidates.map (·.members) = [[0, 2, 3], [1, 2]] ∧
    contention.edges = [(0, 1)] ∧
    contention.reasons 0 1 = [.sharedMember 2, .independent 1 3] := by
  have hpasses : passes keeperPlan (fun contention =>
      contention.candidates.map (·.members) == [[0, 2, 3], [1, 2]] &&
        contention.edges == [(0, 1)] &&
        contention.reasons 0 1 == [.sharedMember 2, .independent 1 3]) = true := by
    decide +kernel
  obtain ⟨reach, contention, hreach, hcontention, hfound⟩ := exists_of_passes hpasses
  simp only [Bool.and_eq_true, beq_iff_eq] at hfound
  exact ⟨reach, contention, hreach, hcontention, hfound.1.1, hfound.1.2, hfound.2⟩

/-- In a list of candidates with the given members, who holds a transaction is read off. -/
theorem holds_iff_of_members {groups : List (List ActionId)}
    (hmembers : contention.candidates.map (·.members) = groups) :
    contention.slate.Holds a x ↔ ∃ group, groups[a]? = some group ∧ x ∈ group := by
  subst hmembers
  simp [Slate.Holds, candidates]

/-- The keeper goes before the left one, so that the alternatives are held crosswise. -/
theorem keeper_crossed : ∃ reach contention, Reach.ofPlan keeperPlan = .ok reach ∧
    ofReach reach = .ok contention ∧ .independent 1 3 ∈ contention.reasons 0 1 ∧
    contention.slate.HoldInTurn 0 1 3 1 ∧ ∃ t, contention.slate.Holds 0 t ∧ t < 1 := by
  obtain ⟨reach, contention, hreach, hcontention, hmembers, -, hreasons⟩ := exists_keeper_contention
  have hmem : .independent 1 3 ∈ contention.reasons 0 1 := by
    rw [hreasons]
    decide
  have hnot : ¬ contention.slate.HoldInTurn 0 1 1 3 := by
    unfold Slate.HoldInTurn
    rw [holds_iff_of_members hmembers, holds_iff_of_members hmembers]
    decide
  obtain ⟨-, hcrossed, hearlier⟩ :=
    sides_named_unless_crossed (x := 1) (y := 3) hreach hcontention (show 0 < 1 by decide)
  exact ⟨reach, contention, hreach, hcontention, hmem, (hcrossed.mp ⟨hmem, hnot⟩).2.2,
    hearlier hmem hnot⟩

/-- A reason may name the alternatives in the order opposite to that of their candidates. -/
theorem alternatives_misnamed : ¬ ∀ (plan : Plan) (contention : Contention),
    ofPlan plan = .ok contention → ∀ a b, (a, b) ∈ contention.edges → ∀ x y,
      .independent x y ∈ contention.reasons a b → contention.slate.HoldInTurn a b x y := by
  obtain ⟨reach, contention, hreach, hcontention, hmembers, hedges, hreasons⟩ :=
    exists_keeper_contention
  intro h
  have hplan : ofPlan keeperPlan = .ok contention := bind_eq_ok_iff.mpr ⟨reach, hreach, hcontention⟩
  have hsides := h keeperPlan contention hplan 0 1 (by rw [hedges]; decide) 1 3
    (by rw [hreasons]; decide)
  have hnot : ¬ contention.slate.Holds 0 1 := by
    rw [holds_iff_of_members hmembers]
    decide
  exact hnot hsides.1

end Contention

end Interlock
