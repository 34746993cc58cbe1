/-
Groups keep apart what is to be kept apart.

A group grows by one transaction at a time, and only by one that no member is kept apart from, so
that a group holds no separated pair if the tied pairs it starts from do not.  Transactions that
are scheduled alone hold no pair at all.
-/
import Interlock.Contention.Group
import Interlock.Proofs.Ascending

namespace Interlock.Ties

variable {ties : Ties}

/-- No two members are kept apart. -/
def Compatible (ties : Ties) (group : List Nat) : Prop :=
  ∀ x ∈ group, ∀ y ∈ group, x ≠ y → ties.separates x y = false

theorem separates_comm (a b : Nat) : ties.separates a b = ties.separates b a := by
  unfold separates
  rw [ordered_comm]

theorem mem_partners {a b : Nat} :
    b ∈ ties.partners a ↔ (a, b) ∈ ties.together ∨ (b, a) ∈ ties.together := by
  simp only [partners, List.mem_filterMap, Prod.exists]
  constructor
  · rintro ⟨x, y, hxy, hpartner⟩
    split at hpartner
    · rename_i heq
      rw [← heq, ← Option.some.inj hpartner]
      exact .inl hxy
    · split at hpartner
      · rename_i heq
        rw [← heq, ← Option.some.inj hpartner]
        exact .inr hxy
      · cases hpartner
  · rintro (hab | hba)
    · exact ⟨a, b, hab, by simp⟩
    · refine ⟨b, a, hba, ?_⟩
      by_cases heq : b = a
      · simp [heq]
      · simp [heq]

theorem mem_joiners {group : List Nat} {next : Nat} : next ∈ ties.joiners group ↔
    (∃ x ∈ group, next ∈ ties.partners x) ∧ next ∉ group ∧
      ∀ x ∈ group, ties.separates x next = false := by
  simp only [joiners, List.mem_filter, mem_ascending natLt_separating, List.mem_flatMap,
    Bool.and_eq_true, Bool.not_eq_true', List.any_eq_false, Bool.not_eq_true,
    List.contains_eq_mem, decide_eq_false_iff_not]

theorem compatible_singleton (t : Nat) : ties.Compatible [t] := by
  intro x hx y hy hne
  rw [List.mem_singleton.mp hx, List.mem_singleton.mp hy] at hne
  exact absurd rfl hne

theorem compatible_pair {a b : Nat} (h : ties.separates a b = false) :
    ties.Compatible [a, b] := by
  intro x hx y hy hne
  simp only [List.mem_cons, List.not_mem_nil, or_false] at hx hy
  rcases hx with rfl | rfl
  · rcases hy with rfl | rfl
    · exact absurd rfl hne
    · exact h
  · rcases hy with rfl | rfl
    · rw [separates_comm]
      exact h
    · exact absurd rfl hne

/-- Whoever can join is kept apart from nobody in the group. -/
theorem compatible_insert {group : List Nat} (h : ties.Compatible group) {next : Nat}
    (hnext : next ∈ ties.joiners group) :
    ties.Compatible (insertAscending natLt next group) := by
  obtain ⟨-, -, hfree⟩ := mem_joiners.mp hnext
  intro x hx y hy hne
  rw [mem_insertAscending natLt_separating] at hx hy
  rcases hx with rfl | hx
  · rcases hy with rfl | hy
    · exact absurd rfl hne
    · rw [separates_comm]
      exact hfree y hy
  · rcases hy with rfl | hy
    · exact hfree x hx
    · exact h x hx y hy hne

/-! ### What every group has -/

section Induction

variable {P : List Nat → Prop}
  (hjoin : ∀ group next, P group → next ∈ ties.joiners group → P (insertAscending natLt next group))
include hjoin

theorem extensions_induction {groups : List (List Nat)} (h : ∀ g ∈ groups, P g) :
    ∀ g ∈ ascending (listLt natLt) (groups.flatMap ties.extensions), P g := by
  intro g hg
  rw [mem_ascending (listLt_separating natLt_separating), List.mem_flatMap] at hg
  obtain ⟨smaller, hsmaller, hg⟩ := hg
  obtain ⟨next, hnext, rfl⟩ := List.mem_map.mp hg
  exact hjoin smaller next (h smaller hsmaller) hnext

theorem grow_induction (rounds : Nat) :
    ∀ groups : List (List Nat), (∀ g ∈ groups, P g) → ∀ g ∈ ties.grow rounds groups, P g := by
  induction rounds with
  | zero => intro groups _ g hg; cases hg
  | succ rounds ih =>
      intro groups h g hg
      unfold grow at hg
      split at hg
      · cases hg
      · rcases List.mem_append.mp hg with hg | hg
        · exact h g hg
        · exact ih _ (extensions_induction hjoin h) g hg

/-- What is true of tied pairs and of single transactions, and is kept when one more joins, is
true of everything that is scheduled as one. -/
theorem units_induction {transactions : List Nat}
    (htied : ∀ x y, (x, y) ∈ ties.together → P [x, y]) (halone : ∀ t ∈ transactions, P [t]) :
    ∀ unit ∈ ties.units transactions, P unit := by
  intro unit hunit
  unfold units at hunit
  rw [mem_ascending (listLt_separating natLt_separating), List.mem_append] at hunit
  rcases hunit with hunit | hunit
  · refine grow_induction hjoin transactions.length _ ?_ unit (List.mem_filter.mp hunit).1
    intro g hg
    obtain ⟨⟨x, y⟩, hxy, rfl⟩ := List.mem_map.mp hg
    exact htied x y hxy
  · obtain ⟨t, ht, rfl⟩ := List.mem_map.mp hunit
    exact halone t (List.mem_filter.mp ht).1

end Induction

/-- **What is scheduled as one holds no pair that is kept apart**, if no tied pair is. -/
theorem units_compatible (htied : ∀ x y, (x, y) ∈ ties.together → ties.separates x y = false)
    (transactions : List Nat) : ∀ unit ∈ ties.units transactions, ties.Compatible unit :=
  units_induction (fun _ _ h hnext => compatible_insert h hnext)
    (fun x y hxy => compatible_pair (htied x y hxy)) (fun t _ => compatible_singleton t)

theorem mem_of_mem_partners {transactions : List Nat}
    (htied : ∀ x y, (x, y) ∈ ties.together → x ∈ transactions ∧ y ∈ transactions) {a t : Nat}
    (h : t ∈ ties.partners a) : t ∈ transactions := by
  rcases mem_partners.mp h with hat | hta
  · exact (htied a t hat).2
  · exact (htied t a hta).1

/-- What is scheduled as one are transactions, if tied pairs are. -/
theorem units_subset {transactions : List Nat}
    (htied : ∀ x y, (x, y) ∈ ties.together → x ∈ transactions ∧ y ∈ transactions) :
    ∀ unit ∈ ties.units transactions, ∀ t ∈ unit, t ∈ transactions := by
  refine units_induction ?_ ?_ ?_
  · intro group next hgroup hnext t ht
    rw [mem_insertAscending natLt_separating] at ht
    rcases ht with rfl | ht
    · obtain ⟨⟨a, -, hpartner⟩, -⟩ := mem_joiners.mp hnext
      exact mem_of_mem_partners htied hpartner
    · exact hgroup t ht
  · intro x y hxy t ht
    simp only [List.mem_cons, List.not_mem_nil, or_false] at ht
    rcases ht with rfl | rfl
    · exact (htied t y hxy).1
    · exact (htied x t hxy).2
  · intro t ht u hu
    rw [List.mem_singleton.mp hu]
    exact ht

end Interlock.Ties
