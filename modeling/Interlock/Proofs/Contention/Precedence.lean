/-
An arrangement considers every candidate once.

Each round places the smallest number below the size that was not placed before and all of whose
predecessors were.  So the numbers placed are distinct and below the size; an arrangement is
answered only if there are as many as the size.
-/
import Mathlib.Data.List.Perm.Subperm
import Interlock.Contention.Precedence

namespace Interlock.Precedence

variable {size : Nat} {edges : List (Nat × Nat)} {placed : List Nat}

/-! ### What stands before -/

/-- The first number stands before the second. -/
def Before (order : List Nat) (a b : Nat) : Prop :=
  ∃ before after, order = before ++ b :: after ∧ a ∈ before

/-- Where a number stands in the order, those before it stand before. -/
theorem before_iff {order before after : List Nat} {a b : Nat} (hnodup : order.Nodup)
    (hsplit : order = before ++ b :: after) : Before order a b ↔ a ∈ before := by
  refine ⟨fun hbefore => ?_, fun ha => ⟨before, after, hsplit, ha⟩⟩
  obtain ⟨before', after', hsplit', ha⟩ := hbefore
  rw [hsplit'] at hnodup
  rw [hsplit'] at hsplit
  rcases List.append_eq_append_iff.mp hsplit with ⟨more, hlonger, -⟩ | ⟨more, hlonger, hafter⟩
  · rw [hlonger]
    exact List.mem_append_left _ ha
  · cases more with
    | nil =>
        rw [List.append_nil] at hlonger
        rwa [← hlonger]
    | cons x more =>
        obtain ⟨rfl, -⟩ := List.cons.inj hafter
        have hb : b ∈ before' := hlonger ▸ List.mem_append_right _ (List.mem_cons_self ..)
        exact absurd rfl ((List.nodup_append.mp hnodup).2.2 b hb b (List.mem_cons_self ..))

theorem not_before_self {order : List Nat} (hnodup : order.Nodup) (a : Nat) :
    ¬ Before order a a := by
  intro hself
  obtain ⟨before, after, rfl, ha⟩ := hself
  exact (List.nodup_append.mp hnodup).2.2 a ha a (List.mem_cons_self ..) rfl

theorem Before.trans {order : List Nat} (hnodup : order.Nodup) {a b c : Nat}
    (hab : Before order a b) (hbc : Before order b c) : Before order a c := by
  obtain ⟨before, after, hsplit, hb⟩ := hbc
  obtain ⟨earlier, between, rfl⟩ := List.append_of_mem hb
  refine ⟨_, after, hsplit, List.mem_append_left _ ?_⟩
  rw [List.append_assoc, List.cons_append] at hsplit
  exact (before_iff hnodup hsplit).mp hab

/-! ### The next number -/

/-- The number can be placed. -/
structure Free (size : Nat) (edges : List (Nat × Nat)) (placed : List Nat) (i : Nat) : Prop where
  lt : i < size
  fresh : i ∉ placed
  ready : ∀ a, (a, i) ∈ edges → a ∈ placed

theorem test_iff {i : Nat} :
    (!placed.contains i && edges.all fun (before, after) =>
      after != i || placed.contains before) = true ↔
      i ∉ placed ∧ ∀ a, (a, i) ∈ edges → a ∈ placed := by
  simp only [Bool.and_eq_true, Bool.not_eq_true', List.contains_eq_mem, decide_eq_false_iff_not,
    List.all_eq_true, Bool.or_eq_true, bne_iff_ne, decide_eq_true_eq, Prod.forall]
  refine and_congr_right fun _ => ⟨fun hready a ha => ?_, fun hready a b hab => ?_⟩
  · exact (hready a i ha).resolve_left (fun hne => hne rfl)
  · by_cases hb : b = i
    · exact .inr (hready a (hb ▸ hab))
    · exact .inl hb

theorem next?_eq_some_iff {i : Nat} : next? size edges placed = some i ↔
    Free size edges placed i ∧ ∀ j < i, ¬ Free size edges placed j := by
  unfold next?
  rw [List.find?_range_eq_some, test_iff, List.mem_range]
  constructor
  · intro hnext
    obtain ⟨⟨hfresh, hready⟩, hlt, hearlier⟩ := hnext
    refine ⟨⟨hlt, hfresh, hready⟩, fun j hj hfree => ?_⟩
    have htest := hearlier j hj
    rw [test_iff.mpr ⟨hfree.fresh, hfree.ready⟩] at htest
    cases htest
  · intro hnext
    obtain ⟨hfree, hearlier⟩ := hnext
    refine ⟨⟨hfree.fresh, hfree.ready⟩, hfree.lt, fun j hj => ?_⟩
    rw [Bool.not_eq_true', Bool.eq_false_iff]
    intro htest
    obtain ⟨hfresh, hready⟩ := test_iff.mp htest
    exact hearlier j hj ⟨Nat.lt_trans hj hfree.lt, hfresh, hready⟩

theorem next?_eq_none_iff :
    next? size edges placed = none ↔ ∀ i, ¬ Free size edges placed i := by
  unfold next?
  rw [List.find?_eq_none]
  simp only [List.mem_range, test_iff]
  constructor
  · intro hnone i hfree
    exact hnone i hfree.lt ⟨hfree.fresh, hfree.ready⟩
  · intro hnone i hi htest
    exact hnone i ⟨hi, htest.1, htest.2⟩

/-! ### All that are placed -/

/-- What was placed is distinct and below the size. -/
structure Partial (size : Nat) (placed : List Nat) : Prop where
  nodup : placed.Nodup
  bounded : ∀ i ∈ placed, i < size

theorem partial_nil : Partial size [] := ⟨List.nodup_nil, fun _ hi => absurd hi (by simp)⟩

theorem next_partial {i : Nat} (h : Partial size placed)
    (hnext : next? size edges placed = some i) : Partial size (placed ++ [i]) := by
  obtain ⟨hfree, -⟩ := next?_eq_some_iff.mp hnext
  refine ⟨?_, ?_⟩
  · refine List.nodup_append.mpr ⟨h.nodup, by simp, ?_⟩
    intro a ha b hb hab
    rw [List.mem_singleton.mp hb] at hab
    exact hfree.fresh (hab ▸ ha)
  · intro j hj
    rcases List.mem_append.mp hj with hj | hj
    · exact h.bounded j hj
    · rw [List.mem_singleton.mp hj]
      exact hfree.lt

theorem place_partial (rounds : Nat) :
    ∀ placed, Partial size placed → Partial size (place size edges rounds placed) := by
  induction rounds with
  | zero => intro placed h; exact h
  | succ rounds ih =>
      intro placed h
      unfold place
      split
      · exact h
      · rename_i i hnext
        exact ih _ (next_partial h hnext)

theorem subperm_range (h : Partial size placed) : placed.Subperm (List.range size) :=
  h.nodup.subperm fun i hi => List.mem_range.mpr (h.bounded i hi)

/-- **An arrangement is a permutation of the numbers below the size.** -/
theorem arrange_perm {order : List Nat} (h : arrange size edges = .ok order) :
    order.Perm (List.range size) := by
  unfold arrange at h
  dsimp only at h
  split at h
  · rename_i hlength
    cases h
    have hplaced : Partial size (place size edges size []) := place_partial size [] partial_nil
    exact (subperm_range hplaced).perm_of_length_le (Nat.le_of_eq (by rw [List.length_range, hlength]))
  · cases h

end Interlock.Precedence
