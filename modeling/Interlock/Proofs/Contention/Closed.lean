/-
Groups grow until nobody can join.

Nobody can join a group if whoever is tied to a member is a member already or is kept apart from
one.  A round makes every group one member larger for everyone who can join it, and a group has at
most as many members as there are transactions, so the rounds do not run out before each tied pair
has grown into a group that nobody can join.  A transaction is scheduled alone only if no such
group holds it, which leaves those without a partner.  So in the end nobody can join anything that
is scheduled as one.
-/
import Mathlib.Data.List.Perm.Subperm
import Interlock.Proofs.Contention.Group

namespace Interlock.Ties

variable {ties : Ties} {transactions : List Nat}

/-- Whoever is tied to a member is a member, or is kept apart from one. -/
def Closed (ties : Ties) (group : List Nat) : Prop :=
  ∀ x ∈ group, ∀ y ∈ ties.partners x, y ∈ group ∨ ∃ z ∈ group, ties.separates z y = true

theorem closed_of_joiners_eq_nil {group : List Nat} (h : ties.joiners group = []) :
    ties.Closed group := by
  intro x hx y hy
  by_contra hnot
  have hfree : ∀ z ∈ group, ties.separates z y = false := by
    intro z hz
    by_contra hsep
    exact hnot (.inr ⟨z, hz, by simpa using hsep⟩)
  have hjoins : y ∈ ties.joiners group :=
    mem_joiners.mpr ⟨⟨x, hx, hy⟩, fun hmem => hnot (.inl hmem), hfree⟩
  rw [h] at hjoins
  cases hjoins

theorem closed_singleton {t : Nat} (h : ties.partners t = []) : ties.Closed [t] := by
  intro x hx y hy
  rw [List.mem_singleton.mp hx, h] at hy
  cases hy

theorem mem_units {unit : List Nat} : unit ∈ ties.units transactions ↔
    (unit ∈ ties.groups transactions.length ∧ ties.joiners unit = []) ∨
      ∃ t ∈ transactions, (∀ g ∈ ties.groups transactions.length,
        ties.joiners g = [] → t ∉ g) ∧ unit = [t] := by
  simp only [units, mem_ascending (listLt_separating natLt_separating), List.mem_append,
    List.mem_filter, List.mem_map, List.isEmpty_iff, Bool.not_eq_true', List.any_eq_false,
    List.contains_iff_mem, and_imp, and_assoc]
  simp only [eq_comm]

/-! ### Rounds suffice -/

/-- Different transactions. -/
structure Fits (transactions group : List Nat) : Prop where
  nodup : group.Nodup
  subset : ∀ t ∈ group, t ∈ transactions

theorem Fits.length_le {group : List Nat} (h : Fits transactions group) :
    group.length ≤ transactions.length :=
  (h.nodup.subperm h.subset).length_le

section Growth

variable (htied : ∀ x y, (x, y) ∈ ties.together → x ∈ transactions ∧ y ∈ transactions)
include htied

theorem Fits.insert {group : List Nat} (h : Fits transactions group) {next : Nat}
    (hnext : next ∈ ties.joiners group) :
    Fits transactions (insertAscending natLt next group) := by
  obtain ⟨⟨x, -, hpartner⟩, hfresh, -⟩ := mem_joiners.mp hnext
  have hperm := insertAscending_perm natLt_separating hfresh
  refine ⟨hperm.nodup_iff.mpr (List.nodup_cons.mpr ⟨hfresh, h.nodup⟩), fun t ht => ?_⟩
  rcases (mem_insertAscending natLt_separating).mp ht with rfl | ht
  · exact mem_of_mem_partners htied hpartner
  · exact h.subset t ht

/-- A group grows into one that nobody can join, given a round for every transaction that it lacks
and one more. -/
theorem exists_unjoinable (rounds : Nat) : ∀ groups : List (List Nat),
    (∀ g ∈ groups, Fits transactions g) → ∀ g ∈ groups,
      transactions.length < g.length + rounds →
        ∃ h ∈ ties.grow rounds groups, (∀ t ∈ g, t ∈ h) ∧ ties.joiners h = [] := by
  induction rounds with
  | zero =>
      intro groups hfits g hg hrounds
      have hlength := (hfits g hg).length_le
      omega
  | succ rounds ih =>
      intro groups hfits g hg hrounds
      have hsome : groups.isEmpty = false := by
        cases groups with
        | nil => cases hg
        | cons => rfl
      unfold grow
      rw [if_neg (by simp [hsome])]
      cases hjoiners : ties.joiners g with
      | nil => exact ⟨g, List.mem_append_left _ hg, fun t ht => ht, hjoiners⟩
      | cons next others =>
          have hnext : next ∈ ties.joiners g := by simp [hjoiners]
          obtain ⟨-, hfresh, -⟩ := mem_joiners.mp hnext
          have hlarger : insertAscending natLt next g ∈
              ascending (listLt natLt) (groups.flatMap ties.extensions) := by
            rw [mem_ascending (listLt_separating natLt_separating), List.mem_flatMap]
            exact ⟨g, hg, List.mem_map.mpr ⟨next, hnext, rfl⟩⟩
          have hlength := (insertAscending_perm natLt_separating hfresh).length_eq
          rw [List.length_cons] at hlength
          obtain ⟨h, hh, hsub, hclosed⟩ := ih _
            (extensions_induction (fun _ _ hfit hjoin => hfit.insert htied hjoin) hfits)
            _ hlarger (by omega)
          refine ⟨h, List.mem_append_right _ hh, fun t ht => hsub t ?_, hclosed⟩
          exact (mem_insertAscending natLt_separating).mpr (.inr ht)

/-- Every tied pair lies in a group that nobody can join. -/
theorem exists_group_of_tied (hne : ∀ x y, (x, y) ∈ ties.together → x ≠ y) {x y : Nat}
    (hxy : (x, y) ∈ ties.together) :
    ∃ g ∈ ties.groups transactions.length, x ∈ g ∧ y ∈ g ∧ ties.joiners g = [] := by
  have hfits : ∀ g ∈ ties.together.map fun pair => [pair.1, pair.2], Fits transactions g := by
    intro g hg
    obtain ⟨⟨u, v⟩, huv, rfl⟩ := List.mem_map.mp hg
    refine ⟨by simpa using hne u v huv, fun t ht => ?_⟩
    simp only [List.mem_cons, List.not_mem_nil, or_false] at ht
    rcases ht with rfl | rfl
    · exact (htied t v huv).1
    · exact (htied u t huv).2
  obtain ⟨g, hg, hsub, hclosed⟩ := exists_unjoinable htied transactions.length _ hfits [x, y]
    (List.mem_map.mpr ⟨(x, y), hxy, rfl⟩) (by simp)
  exact ⟨g, hg, hsub x (by simp), hsub y (by simp), hclosed⟩

/-- Who is in no group that nobody can join has no partner. -/
theorem partners_eq_nil (hne : ∀ x y, (x, y) ∈ ties.together → x ≠ y) {t : Nat}
    (hlone : ∀ g ∈ ties.groups transactions.length, ties.joiners g = [] → t ∉ g) :
    ties.partners t = [] := by
  refine List.eq_nil_iff_forall_not_mem.mpr fun y hy => ?_
  rcases mem_partners.mp hy with hty | hyt
  · obtain ⟨g, hg, hmem, -, hclosed⟩ := exists_group_of_tied htied hne hty
    exact hlone g hg hclosed hmem
  · obtain ⟨g, hg, -, hmem, hclosed⟩ := exists_group_of_tied htied hne hyt
    exact hlone g hg hclosed hmem

/-- **Nobody can join what is scheduled as one**: whoever is tied to a member is a member, or is
kept apart from one. -/
theorem units_closed (hne : ∀ x y, (x, y) ∈ ties.together → x ≠ y) :
    ∀ unit ∈ ties.units transactions, ties.Closed unit := by
  intro unit hunit
  rcases mem_units.mp hunit with ⟨-, hclosed⟩ | ⟨t, -, hlone, rfl⟩
  · exact closed_of_joiners_eq_nil hclosed
  · exact closed_singleton (partners_eq_nil htied hne hlone)

end Growth

end Interlock.Ties
