/-
Groups are the linked sets that hold no pair kept apart.

A set is linked if ties lead from each member to each other one without leaving the set.  Nothing
is found but linked sets: tied pairs are linked, and a linked set stays so when somebody joins who
is tied to a member.  No linked set is missed either.  As long as a group inside a linked set lacks
a member, ties lead out of the group, to one who can join if nobody in the set is kept apart from
another; and since the rounds suffice for any set of transactions, the whole set is grown in the
end.  For the same reason somebody can join a group exactly if it is not maximal.
-/
import Mathlib.Data.Finset.Sort
import Mathlib.Order.Minimal
import Interlock.Proofs.Contention.Closed

namespace Interlock

/-! ### Linked sets -/

/-- Ties lead from each member to each other one within the set. -/
def Linked (tied : Nat → Nat → Prop) (group : Finset Nat) : Prop :=
  ∀ x ∈ group, ∀ y ∈ group, Relation.ReflTransGen (fun u v => v ∈ group ∧ tied u v) x y

/-- At least two that are linked, no two of them kept apart. -/
structure IsGroup (tied apart : Nat → Nat → Prop) (group : Finset Nat) : Prop where
  two : 2 ≤ group.card
  linked : Linked tied group
  compatible : ∀ x ∈ group, ∀ y ∈ group, ¬ apart x y

/-- A way that leaves a set does so by some step. -/
theorem exists_step_out {step : Nat → Nat → Prop} {P : Nat → Prop} {x y : Nat}
    (h : Relation.ReflTransGen step x y) (hx : P x) (hy : ¬ P y) :
    ∃ u v, P u ∧ ¬ P v ∧ step u v := by
  induction h with
  | refl => exact absurd hx hy
  | @tail u v _ hstep ih =>
      by_cases hu : P u
      · exact ⟨u, v, hu, hy, hstep⟩
      · exact ih hu

section Linked

variable {tied apart : Nat → Nat → Prop} {group larger : Finset Nat}

theorem Linked.join (h : Linked tied group) (hsymm : ∀ u v, tied u v → tied v u) {x next : Nat}
    (hx : x ∈ group) (htied : tied x next) : Linked tied (insert next group) := by
  have hwithin : ∀ u ∈ group, ∀ v ∈ group,
      Relation.ReflTransGen (fun a b => b ∈ insert next group ∧ tied a b) u v := by
    intro u hu v hv
    refine Relation.ReflTransGen.mono (fun a b hab => ?_) u v (h u hu v hv)
    exact ⟨Finset.mem_insert_of_mem hab.1, hab.2⟩
  have hin : ∀ u ∈ group,
      Relation.ReflTransGen (fun a b => b ∈ insert next group ∧ tied a b) u next :=
    fun u hu => (hwithin u hu x hx).tail ⟨Finset.mem_insert_self .., htied⟩
  have hout : ∀ v ∈ group,
      Relation.ReflTransGen (fun a b => b ∈ insert next group ∧ tied a b) next v :=
    fun v hv => (hwithin x hx v hv).head ⟨Finset.mem_insert_of_mem hx, hsymm x next htied⟩
  intro u hu v hv
  by_cases hunext : u = next
  · by_cases hvnext : v = next
    · rw [hunext, hvnext]
    · rw [hunext]
      exact hout v (Finset.mem_of_mem_insert_of_ne hv hvnext)
  · have hu' := Finset.mem_of_mem_insert_of_ne hu hunext
    by_cases hvnext : v = next
    · rw [hvnext]
      exact hin u hu'
    · exact hwithin u hu' v (Finset.mem_of_mem_insert_of_ne hv hvnext)

theorem IsGroup.nonempty (h : IsGroup tied apart group) : group.Nonempty := by
  have htwo := h.two
  exact Finset.card_pos.mp (by omega)

theorem IsGroup.exists_partner (h : IsGroup tied apart group) {t : Nat} (ht : t ∈ group) :
    ∃ u ∈ group, u ≠ t ∧ tied t u := by
  obtain ⟨y, hy, hne⟩ := Finset.exists_mem_ne h.two t
  obtain ⟨u, v, rfl, hv, hmem, htied⟩ :=
    exists_step_out (P := (· = t)) (h.linked t ht y hy) rfl hne
  exact ⟨v, hmem, hv, htied⟩

/-- Ties lead out of a part of a group that lacks a member. -/
theorem IsGroup.exists_out (h : IsGroup tied apart larger) {P : Nat → Prop} {x y : Nat}
    (hx : x ∈ larger) (hP : P x) (hy : y ∈ larger) (hrest : ¬ P y) :
    ∃ u v, P u ∧ ¬ P v ∧ v ∈ larger ∧ tied u v :=
  exists_step_out (h.linked x hx y hy) hP hrest

end Linked

/-! ### What runs as one -/

/-- A maximal group, or a transaction without a partner. -/
def RunsAsOne (tied apart : Nat → Nat → Prop) (transactions : List Nat)
    (members : Finset Nat) : Prop :=
  Maximal (IsGroup tied apart) members ∨
    ∃ t ∈ transactions, (∀ u, ¬ tied t u) ∧ members = {t}

namespace RunsAsOne

variable {tied apart : Nat → Nat → Prop} {transactions : List Nat} {members others : Finset Nat}
  (h : RunsAsOne tied apart transactions members)
include h

theorem nonempty : members.Nonempty := by
  rcases h with hgroup | ⟨t, -, -, rfl⟩
  · exact hgroup.1.nonempty
  · exact Finset.singleton_nonempty t

theorem compatible (hirrefl : ∀ x, ¬ apart x x) :
    ∀ x ∈ members, ∀ y ∈ members, ¬ apart x y := by
  rcases h with hgroup | ⟨t, -, -, rfl⟩
  · exact hgroup.1.compatible
  · intro x hx y hy
    rw [Finset.mem_singleton.mp hx, Finset.mem_singleton.mp hy]
    exact hirrefl t

/-- What runs as one is not part of something else that does. -/
theorem eq_of_subset (hothers : RunsAsOne tied apart transactions others)
    (hsub : members ⊆ others) : members = others := by
  rcases h with hgroup | ⟨t, -, hlone, rfl⟩
  · rcases hothers with hgroup' | ⟨t', -, -, rfl⟩
    · exact Finset.Subset.antisymm hsub (hgroup.2 hgroup'.1 hsub)
    · have hcard := Finset.card_le_card hsub
      rw [Finset.card_singleton] at hcard
      have htwo := hgroup.1.two
      omega
  · rcases hothers with hgroup' | ⟨t', -, -, rfl⟩
    · obtain ⟨u, -, -, htied⟩ := hgroup'.1.exists_partner (Finset.singleton_subset_iff.mp hsub)
      exact absurd htied (hlone u)
    · rw [Finset.mem_singleton.mp (Finset.singleton_subset_iff.mp hsub)]

/-- If nobody is kept apart, all who are linked to a member are members. -/
theorem mem_iff_of_not_apart (hsymm : ∀ u v, tied u v → tied v u) (hnone : ∀ x y, ¬ apart x y)
    {t u : Nat} (ht : t ∈ members) : u ∈ members ↔ Relation.ReflTransGen tied t u := by
  constructor
  · intro hu
    rcases h with hgroup | ⟨only, -, -, rfl⟩
    · exact Relation.ReflTransGen.mono (fun _ _ hstep => hstep.2) t u (hgroup.1.linked t ht u hu)
    · rw [Finset.mem_singleton.mp ht, Finset.mem_singleton.mp hu]
  · intro hlinked
    by_contra hu
    obtain ⟨x, next, hx, hnext, htied⟩ := exists_step_out (P := (· ∈ members)) hlinked ht hu
    rcases h with hgroup | ⟨only, -, hlone, rfl⟩
    · have hlarger : IsGroup tied apart (insert next members) :=
        { two := hgroup.1.two.trans (Finset.card_le_card (Finset.subset_insert _ _))
          linked := hgroup.1.linked.join hsymm hx htied
          compatible := fun x _ y _ => hnone x y }
      exact hnext (hgroup.2 hlarger (Finset.subset_insert _ _) (Finset.mem_insert_self _ _))
    · rw [Finset.mem_singleton.mp hx] at htied
      exact hlone next htied

end RunsAsOne

namespace Ties

variable {ties : Ties} {transactions : List Nat}

/-- The two run together. -/
def Tied (ties : Ties) (x y : Nat) : Prop := y ∈ ties.partners x

/-- The two never run together. -/
def KeptApart (ties : Ties) (x y : Nat) : Prop := x ≠ y ∧ ties.separates x y = true

theorem tied_symm {x y : Nat} (h : ties.Tied x y) : ties.Tied y x :=
  mem_partners.mpr (mem_partners.mp h).symm

theorem compatible_iff {group : List Nat} :
    ties.Compatible group ↔ ∀ x ∈ group, ∀ y ∈ group, ¬ ties.KeptApart x y := by
  unfold Compatible KeptApart
  simp only [not_and, Bool.not_eq_true]

/-- Different transactions are tied, the smaller number first, and none that are kept apart. -/
structure Between (ties : Ties) (transactions : List Nat) : Prop where
  members : ∀ x y, (x, y) ∈ ties.together → x ∈ transactions ∧ y ∈ transactions
  ascending : ∀ x y, (x, y) ∈ ties.together → x < y
  free : ∀ x y, (x, y) ∈ ties.together → ties.separates x y = false

/-! ### Rounds -/

/-- The smallest groups: the tied pairs. -/
def seeds (ties : Ties) : List (List Nat) := ties.together.map fun (x, y) => [x, y]

/-- The groups that one round makes: one member larger, for everyone who can join. -/
def enlarge (ties : Ties) (groups : List (List Nat)) : List (List Nat) :=
  ascending (listLt natLt) (groups.flatMap ties.extensions)

theorem mem_enlarge {groups : List (List Nat)} {g : List Nat} : g ∈ ties.enlarge groups ↔
    ∃ smaller ∈ groups, ∃ next ∈ ties.joiners smaller, insertAscending natLt next smaller = g := by
  simp only [enlarge, mem_ascending (listLt_separating natLt_separating), List.mem_flatMap,
    extensions, List.mem_map]

theorem grow_nil (rounds : Nat) : ties.grow rounds [] = [] := by
  cases rounds <;> rfl

theorem grow_succ (rounds : Nat) (groups : List (List Nat)) :
    ties.grow (rounds + 1) groups = groups ++ ties.grow rounds (ties.enlarge groups) := by
  cases groups with
  | nil => rw [grow_nil, List.nil_append, show ties.enlarge [] = [] from rfl, grow_nil]
  | cons => rfl

theorem grow_add (rounds more : Nat) : ∀ groups : List (List Nat),
    ties.grow (rounds + more) groups =
      ties.grow rounds groups ++ ties.grow more (ties.enlarge^[rounds] groups) := by
  induction rounds with
  | zero => intro groups; simp [grow]
  | succ rounds ih =>
      intro groups
      rw [show rounds + 1 + more = (rounds + more) + 1 by omega, grow_succ, grow_succ, ih,
        Function.iterate_succ_apply, List.append_assoc]

/-! ### Nothing but groups is found -/

/-- A set that grew: a group, its members listed in order. -/
structure Grown (ties : Ties) (group : List Nat) : Prop where
  ascending : group.Pairwise (· < ·)
  isGroup : IsGroup ties.Tied ties.KeptApart group.toFinset

theorem Grown.sort_eq {group : List Nat} (h : ties.Grown group) :
    group.toFinset.sort = group :=
  (List.toFinset_sort (· ≤ ·) (h.ascending.imp Nat.ne_of_lt)).mpr (h.ascending.imp Nat.le_of_lt)

theorem Grown.card_eq {group : List Nat} (h : ties.Grown group) :
    group.toFinset.card = group.length :=
  List.toFinset_card_of_nodup (h.ascending.imp Nat.ne_of_lt)

theorem toFinset_insertAscending (next : Nat) (group : List Nat) :
    (insertAscending natLt next group).toFinset = insert next group.toFinset := by
  ext t
  simp [mem_insertAscending natLt_separating]

theorem Grown.join {group : List Nat} (h : ties.Grown group) {next : Nat}
    (hnext : next ∈ ties.joiners group) : ties.Grown (insertAscending natLt next group) := by
  obtain ⟨⟨x, hx, htied⟩, -, -⟩ := mem_joiners.mp hnext
  have hcompatible : ties.Compatible group :=
    compatible_iff.mpr (by simpa using h.isGroup.compatible)
  refine ⟨?_, ?_⟩
  · have hascending : group.Pairwise fun a b => natLt a b = true :=
      h.ascending.imp fun hab => natLt_iff.mpr hab
    exact (insertAscending_pairwise natLt_ranking hascending).imp fun hab => natLt_iff.mp hab
  · refine ⟨?_, ?_, ?_⟩
    · rw [toFinset_insertAscending]
      exact h.isGroup.two.trans (Finset.card_le_card (Finset.subset_insert _ _))
    · rw [toFinset_insertAscending]
      exact h.isGroup.linked.join (fun _ _ => tied_symm) (by simpa using hx) htied
    · simpa using compatible_iff.mp (compatible_insert hcompatible hnext)

theorem length_join {group : List Nat} {next : Nat}
    (hnext : next ∈ ties.joiners group) :
    (insertAscending natLt next group).length = group.length + 1 := by
  obtain ⟨-, hfresh, -⟩ := mem_joiners.mp hnext
  exact (insertAscending_perm natLt_separating hfresh).length_eq

theorem enlarge_grown {size : Nat} {groups : List (List Nat)}
    (hgroups : ∀ g ∈ groups, ties.Grown g ∧ g.length = size) :
    ∀ g ∈ ties.enlarge groups, ties.Grown g ∧ g.length = size + 1 := by
  intro g hg
  obtain ⟨smaller, hsmaller, next, hnext, rfl⟩ := mem_enlarge.mp hg
  obtain ⟨hgrown, hlength⟩ := hgroups smaller hsmaller
  exact ⟨hgrown.join hnext, by rw [length_join hnext, hlength]⟩

theorem iterate_enlarge_grown {size : Nat} {groups : List (List Nat)}
    (hgroups : ∀ g ∈ groups, ties.Grown g ∧ g.length = size) (rounds : Nat) :
    ∀ g ∈ ties.enlarge^[rounds] groups, ties.Grown g ∧ g.length = size + rounds := by
  induction rounds with
  | zero => exact hgroups
  | succ rounds ih =>
      rw [Function.iterate_succ_apply']
      exact enlarge_grown ih

/-! ### No group is missed -/

/-- A group has room for whoever is missing and tied to a member. -/
theorem exists_joiner {larger : Finset Nat} (hlarger : IsGroup ties.Tied ties.KeptApart larger)
    {group : List Nat} (hsub : ∀ t ∈ group, t ∈ larger) {x y : Nat} (hx : x ∈ group)
    (hy : y ∈ larger) (hmissing : y ∉ group) : ∃ next ∈ larger, next ∈ ties.joiners group := by
  obtain ⟨u, v, hu, hv, hvlarger, htied⟩ :=
    hlarger.exists_out (P := (· ∈ group)) (hsub x hx) hx hy hmissing
  refine ⟨v, hvlarger, mem_joiners.mpr ⟨⟨u, hu, htied⟩, hv, fun z hz => ?_⟩⟩
  by_contra hseparates
  refine hlarger.compatible z (hsub z hz) v hvlarger ⟨?_, by simpa using hseparates⟩
  intro heq
  rw [heq] at hz
  exact hv hz

/-- A group inside a larger one grows into that, given a round for every member it lacks. -/
theorem sort_mem_grow {larger : Finset Nat} (hlarger : IsGroup ties.Tied ties.KeptApart larger)
    (rounds : Nat) : ∀ (groups : List (List Nat)) (group : List Nat), group ∈ groups →
      ties.Grown group → (∀ t ∈ group, t ∈ larger) → larger.card < group.length + rounds →
        larger.sort ∈ ties.grow rounds groups := by
  induction rounds with
  | zero =>
      intro groups group hmem hgrown hsub hrounds
      have hcard : group.toFinset.card ≤ larger.card :=
        Finset.card_le_card fun t ht => hsub t (List.mem_toFinset.mp ht)
      rw [hgrown.card_eq] at hcard
      omega
  | succ rounds ih =>
      intro groups group hmem hgrown hsub hrounds
      rw [grow_succ]
      by_cases hall : ∀ t ∈ larger, t ∈ group
      · have heq : group.toFinset = larger := by
          ext t
          rw [List.mem_toFinset]
          exact ⟨hsub t, hall t⟩
        rw [← heq, hgrown.sort_eq]
        exact List.mem_append_left _ hmem
      · simp only [not_forall] at hall
        obtain ⟨y, hy, hmissing⟩ := hall
        obtain ⟨x, hx⟩ := hgrown.isGroup.nonempty
        obtain ⟨next, hnext, hjoins⟩ :=
          exists_joiner hlarger hsub (List.mem_toFinset.mp hx) hy hmissing
        have hlength := length_join hjoins
        refine List.mem_append_right _ (ih _ (insertAscending natLt next group) ?_
          (hgrown.join hjoins) ?_ (by omega))
        · exact mem_enlarge.mpr ⟨group, hmem, next, hjoins, rfl⟩
        · intro t ht
          rcases (mem_insertAscending natLt_separating).mp ht with htnext | htgroup
          · rw [htnext]
            exact hnext
          · exact hsub t htgroup

section Between

variable (h : ties.Between transactions)
include h

/-! ### The groups that are found -/

theorem seeds_grown : ∀ g ∈ ties.seeds, ties.Grown g := by
  intro g hg
  obtain ⟨⟨x, y⟩, hxy, rfl⟩ := List.mem_map.mp hg
  have hlt := h.ascending x y hxy
  refine ⟨by simpa using hlt, ?_, ?_, ?_⟩
  · have hne : x ≠ y := by omega
    simp [hne]
  · have hself : Linked ties.Tied {x} := by
      intro u hu v hv
      rw [Finset.mem_singleton.mp hu, Finset.mem_singleton.mp hv]
    have hpair := hself.join (fun _ _ => tied_symm) (Finset.mem_singleton_self x)
      (mem_partners.mpr (.inl hxy))
    rw [Finset.pair_comm] at hpair
    simpa using hpair
  · simpa using compatible_iff.mp (compatible_pair (h.free x y hxy))

theorem groups_grown : ∀ g ∈ ties.groups transactions.length, ties.Grown g :=
  grow_induction (fun _ _ hgrown hnext => hgrown.join hnext) _ _ (seeds_grown h)

theorem mem_transactions_of_tied {x y : Nat} (hxy : ties.Tied x y) : x ∈ transactions :=
  mem_of_mem_partners h.members (tied_symm hxy)

theorem card_le_of_isGroup {group : Finset Nat} (hgroup : IsGroup ties.Tied ties.KeptApart group) :
    group.card ≤ transactions.length := by
  have hsub : group ⊆ transactions.toFinset := by
    intro t ht
    obtain ⟨u, -, -, htied⟩ := hgroup.exists_partner ht
    exact List.mem_toFinset.mpr (mem_transactions_of_tied h htied)
  exact (Finset.card_le_card hsub).trans (List.toFinset_card_le _)

/-- **The groups that are found are all groups**: the linked sets of at least two transactions
that hold no pair kept apart. -/
theorem sort_mem_groups_iff {group : Finset Nat} :
    group.sort ∈ ties.groups transactions.length ↔ IsGroup ties.Tied ties.KeptApart group := by
  constructor
  · intro hmem
    have hgrown := groups_grown h _ hmem
    simpa using hgrown.isGroup
  · intro hgroup
    obtain ⟨x, hx⟩ := hgroup.nonempty
    obtain ⟨y, hy, -, htied⟩ := hgroup.exists_partner hx
    obtain ⟨seed, hseed, hlength, hsub⟩ :
        ∃ seed ∈ ties.seeds, seed.length = 2 ∧ ∀ t ∈ seed, t ∈ group := by
      rcases mem_partners.mp htied with hxy | hyx
      · exact ⟨[x, y], List.mem_map.mpr ⟨(x, y), hxy, rfl⟩, rfl, by simp [hx, hy]⟩
      · exact ⟨[y, x], List.mem_map.mpr ⟨(y, x), hyx, rfl⟩, rfl, by simp [hx, hy]⟩
    have hcard := card_le_of_isGroup h hgroup
    exact sort_mem_grow hgroup _ ties.seeds seed hseed (seeds_grown h seed hseed) hsub (by omega)

/-- Nobody can join a group exactly if it is maximal. -/
theorem joiners_eq_nil_iff {group : Finset Nat}
    (hgroup : IsGroup ties.Tied ties.KeptApart group) :
    ties.joiners group.sort = [] ↔ Maximal (IsGroup ties.Tied ties.KeptApart) group := by
  constructor
  · intro hclosed
    refine ⟨hgroup, fun larger hlarger hsub => ?_⟩
    by_contra hproper
    obtain ⟨y, hy, hmissing⟩ := Finset.not_subset.mp hproper
    obtain ⟨x, hx⟩ := hgroup.nonempty
    have hwithin : ∀ t ∈ group.sort, t ∈ larger := fun t ht => hsub ((Finset.mem_sort _).mp ht)
    obtain ⟨next, -, hjoins⟩ :=
      exists_joiner hlarger hwithin ((Finset.mem_sort _).mpr hx) hy (by simpa)
    rw [hclosed] at hjoins
    cases hjoins
  · intro hmaximal
    refine List.eq_nil_iff_forall_not_mem.mpr fun next hnext => ?_
    have hgrown := groups_grown h _ ((sort_mem_groups_iff h).mpr hgroup)
    have hlarger := (hgrown.join hnext).isGroup
    rw [toFinset_insertAscending, Finset.sort_toFinset] at hlarger
    obtain ⟨-, hfresh, -⟩ := mem_joiners.mp hnext
    have hmem := hmaximal.2 hlarger (Finset.subset_insert next group)
      (Finset.mem_insert_self next group)
    exact hfresh ((Finset.mem_sort _).mpr hmem)

/-- **What is scheduled as one are the maximal groups and the transactions without a partner.** -/
theorem mem_units_iff {unit : List Nat} : unit ∈ ties.units transactions ↔
    ∃ members, RunsAsOne ties.Tied ties.KeptApart transactions members ∧ members.sort = unit := by
  have hne : ∀ x y, (x, y) ∈ ties.together → x ≠ y :=
    fun x y hxy => Nat.ne_of_lt (h.ascending x y hxy)
  rw [mem_units]
  constructor
  · intro hunit
    rcases hunit with ⟨hmem, hclosed⟩ | ⟨t, ht, hlone, rfl⟩
    · have hgrown := groups_grown h unit hmem
      refine ⟨unit.toFinset, .inl ?_, hgrown.sort_eq⟩
      rw [← joiners_eq_nil_iff h hgrown.isGroup, hgrown.sort_eq]
      exact hclosed
    · refine ⟨{t}, .inr ⟨t, ht, fun u hu => ?_, rfl⟩, Finset.sort_singleton _ t⟩
      have hnone := partners_eq_nil h.members hne hlone
      unfold Tied at hu
      rw [hnone] at hu
      cases hu
  · intro hunit
    obtain ⟨members, hmaximal | ⟨t, ht, hnone, rfl⟩, rfl⟩ := hunit
    · have hmem := (sort_mem_groups_iff h).mpr hmaximal.1
      exact .inl ⟨hmem, (joiners_eq_nil_iff h hmaximal.1).mpr hmaximal⟩
    · refine .inr ⟨t, ht, fun g hg _ htg => ?_, Finset.sort_singleton _ t⟩
      obtain ⟨u, -, -, htied⟩ :=
        (groups_grown h g hg).isGroup.exists_partner (List.mem_toFinset.mpr htg)
      exact hnone u htied

/-- Every transaction is in something that runs as one. -/
theorem exists_runsAsOne {t : Nat} (ht : t ∈ transactions) : ∃ members,
    RunsAsOne ties.Tied ties.KeptApart transactions members ∧ t ∈ members := by
  by_cases hlone : ∀ g ∈ ties.groups transactions.length, ties.joiners g = [] → t ∉ g
  · obtain ⟨members, hmembers, hsort⟩ :=
      (mem_units_iff h).mp (mem_units.mpr (.inr ⟨t, ht, hlone, rfl⟩))
    exact ⟨members, hmembers, by rw [← Finset.mem_sort (· ≤ ·), hsort]; simp⟩
  · simp only [not_forall, not_not] at hlone
    obtain ⟨g, hg, hclosed, htg⟩ := hlone
    obtain ⟨members, hmembers, hsort⟩ := (mem_units_iff h).mp (mem_units.mpr (.inl ⟨hg, hclosed⟩))
    exact ⟨members, hmembers, by rw [← Finset.mem_sort (· ≤ ·), hsort]; exact htg⟩

/-! ### Growing comes to an end -/

/-- As many rounds as there are transactions leave no group to grow. -/
theorem enlarge_seeds_eq_nil : ties.enlarge^[transactions.length] ties.seeds = [] := by
  refine List.eq_nil_iff_forall_not_mem.mpr fun g hg => ?_
  have hseeds : ∀ g ∈ ties.seeds, ties.Grown g ∧ g.length = 2 := by
    intro seed hseed
    refine ⟨seeds_grown h seed hseed, ?_⟩
    obtain ⟨pair, -, rfl⟩ := List.mem_map.mp hseed
    rfl
  obtain ⟨hgrown, hlength⟩ := iterate_enlarge_grown hseeds _ g hg
  have hcard := card_le_of_isGroup h hgrown.isGroup
  rw [hgrown.card_eq] at hcard
  omega

/-- **The rounds suffice**: more of them find nothing more. -/
theorem grow_seeds_eq (more : Nat) :
    ties.grow (transactions.length + more) ties.seeds = ties.groups transactions.length := by
  rw [grow_add, enlarge_seeds_eq_nil h, grow_nil, List.append_nil]
  rfl

end Between

end Ties

end Interlock
