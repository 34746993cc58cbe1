/-
An arrangement is the first order that follows the edges, or shows that they run in a circle.

An order that follows the edges can be placed number by number, and the least number that can be
placed next is no greater than the next one of any other such order; so what is placed never comes
after it.  If nothing can be placed any more, every number left over has a predecessor that is
left over too.  The walk along them never ends by itself, visits no number twice before it stops,
and has more steps than there are numbers: so it comes to a number again, and closes a circle.
-/
import Mathlib.Data.List.Chain
import Mathlib.Data.List.TakeWhile
import Mathlib.Logic.Relation
import Interlock.Proofs.Contention.Clashes

namespace Interlock

namespace Precedence

variable {size : Nat} {edges : List (Nat × Nat)}

/-! ### Orders that follow the edges -/

/-- The order has every number below the size, and every edge goes forward in it. -/
structure Follows (size : Nat) (edges : List (Nat × Nat)) (order : List Nat) : Prop where
  perm : order.Perm (List.range size)
  forward : ∀ a b, (a, b) ∈ edges → Before order a b

/-- The edges run in no circle. -/
def Acyclic (edges : List (Nat × Nat)) : Prop :=
  ∀ i, ¬ Relation.TransGen (fun a b => (a, b) ∈ edges) i i

/-- The first order that follows the edges. -/
structure IsFirst (size : Nat) (edges : List (Nat × Nat)) (order : List Nat) : Prop where
  follows : Follows size edges order
  first : ∀ other, Follows size edges other → order = other ∨ order < other

/-- Numbers that the edges lead through, from one back to itself. -/
structure IsCircle (edges : List (Nat × Nat)) (circle : List Nat) : Prop where
  length_ge : 2 ≤ circle.length
  closed : circle.head? = circle.getLast?
  chain : circle.IsChain fun a b => (a, b) ∈ edges

/-- The edges are between numbers below the size. -/
def Within (size : Nat) (edges : List (Nat × Nat)) : Prop :=
  ∀ a b, (a, b) ∈ edges → a < size ∧ b < size

/-- The numbers of the list can be placed one by one. -/
def Extends (size : Nat) (edges : List (Nat × Nat)) : List Nat → List Nat → Prop
  | _, [] => True
  | placed, i :: rest => Free size edges placed i ∧ Extends size edges (placed ++ [i]) rest

theorem Extends.free {before after : List Nat} {i : Nat} :
    ∀ {placed}, Extends size edges placed (before ++ i :: after) →
      Free size edges (placed ++ before) i := by
  induction before with
  | nil =>
      intro placed h
      rw [List.append_nil]
      exact h.1
  | cons first before ih =>
      intro placed h
      have hfree := ih h.2
      rwa [List.append_assoc, List.singleton_append] at hfree

theorem Follows.nodup {order : List Nat} (h : Follows size edges order) : order.Nodup :=
  h.perm.nodup_iff.mpr List.nodup_range

theorem Follows.extends_of_eq {order : List Nat} (h : Follows size edges order) :
    ∀ {rest placed}, order = placed ++ rest → Extends size edges placed rest := by
  intro rest
  induction rest with
  | nil => exact fun _ => trivial
  | cons i rest ih =>
      intro placed hsplit
      refine ⟨⟨?_, ?_, fun a ha => ?_⟩, ih (by rw [hsplit]; simp)⟩
      · exact List.mem_range.mp (h.perm.mem_iff.mp (by simp [hsplit]))
      · intro hi
        have hnodup := h.nodup
        rw [hsplit] at hnodup
        exact (List.nodup_append.mp hnodup).2.2 i hi i (List.mem_cons_self ..) rfl
      · exact (before_iff h.nodup hsplit).mp (h.forward a i ha)

/-- An order follows the edges if it can be placed. -/
theorem follows_of_extends (hwithin : Within size edges) {order : List Nat}
    (hperm : order.Perm (List.range size)) (h : Extends size edges [] order) :
    Follows size edges order := by
  refine ⟨hperm, fun a b hab => ?_⟩
  obtain ⟨before, after, rfl⟩ :=
    List.append_of_mem (hperm.mem_iff.mpr (List.mem_range.mpr (hwithin a b hab).2))
  exact ⟨before, after, rfl, by simpa using h.free.ready a hab⟩

/-- If some order follows the edges, they run in no circle. -/
theorem Follows.acyclic {order : List Nat} (h : Follows size edges order) : Acyclic edges := by
  intro i hcircle
  have hforward : ∀ j, Relation.TransGen (fun a b => (a, b) ∈ edges) i j → Before order i j := by
    intro j hreach
    induction hreach with
    | single hedge => exact h.forward _ _ hedge
    | tail _ hedge ih => exact ih.trans h.nodup (h.forward _ _ hedge)
  exact not_before_self h.nodup i (hforward i hcircle)

/-! ### Placing -/

variable (size edges) in
theorem place_extends (rounds : Nat) : ∀ placed, ∃ more,
    place size edges rounds placed = placed ++ more ∧ Extends size edges placed more := by
  induction rounds with
  | zero => exact fun placed => ⟨[], (List.append_nil placed).symm, trivial⟩
  | succ rounds ih =>
      intro placed
      unfold place
      split
      · exact ⟨[], (List.append_nil placed).symm, trivial⟩
      · rename_i i hnext
        obtain ⟨more, heq, hmore⟩ := ih (placed ++ [i])
        exact ⟨i :: more, by rw [heq]; simp, (next?_eq_some_iff.mp hnext).1, hmore⟩

/-- What is placed never comes after what could be placed instead. -/
theorem place_first (rest : List Nat) : ∀ placed, Extends size edges placed rest →
    place size edges rest.length placed = placed ++ rest ∨
      place size edges rest.length placed < placed ++ rest := by
  induction rest with
  | nil => exact fun placed _ => .inl (List.append_nil placed).symm
  | cons i rest ih =>
      intro placed h
      rw [List.length_cons]
      unfold place
      split
      · rename_i hnone
        exact absurd h.1 (next?_eq_none_iff.mp hnone i)
      · rename_i j hnext
        obtain ⟨-, hearlier⟩ := next?_eq_some_iff.mp hnext
        -- The least number that can be placed is no greater than the one that the list has next.
        rcases Nat.lt_trichotomy j i with hj | rfl | hj
        · obtain ⟨more, heq, -⟩ := place_extends size edges rest.length (placed ++ [j])
          rw [heq, List.append_assoc]
          exact .inr (List.append_left_lt (List.cons_lt_cons_iff.mpr (.inl hj)))
        · have hrest := ih (placed ++ [j]) h.2
          rwa [List.append_assoc, List.singleton_append] at hrest
        · exact absurd h.1 (hearlier i hj)

/-- Placing goes on while numbers can be placed. -/
theorem next?_place_of_lt (rounds : Nat) : ∀ placed,
    (place size edges rounds placed).length < placed.length + rounds →
      next? size edges (place size edges rounds placed) = none := by
  induction rounds with
  | zero => exact fun placed h => absurd h (Nat.lt_irrefl _)
  | succ rounds ih =>
      intro placed h
      unfold place at h ⊢
      split at h
      · rename_i hnext
        exact hnext
      · refine ih _ ?_
        rw [List.length_append, List.length_singleton]
        omega

/-- If all edges go up, the numbers are placed in their own order. -/
theorem place_range (hup : ∀ a b, (a, b) ∈ edges → a < b) (rounds : Nat) :
    ∀ k, k + rounds ≤ size → place size edges rounds (List.range k) = List.range (k + rounds) := by
  induction rounds with
  | zero => exact fun _ _ => rfl
  | succ rounds ih =>
      intro k hk
      have hnext : next? size edges (List.range k) = some k := by
        refine next?_eq_some_iff.mpr ⟨⟨by omega, by simp, fun a ha => ?_⟩, fun j hj hfree => ?_⟩
        · exact List.mem_range.mpr (hup a k ha)
        · exact hfree.fresh (List.mem_range.mpr hj)
      unfold place
      rw [hnext]
      dsimp only
      rw [← List.range_succ, ih (k + 1) (by omega)]
      congr 1
      omega

theorem arrange_range (hup : ∀ a b, (a, b) ∈ edges → a < b) :
    arrange size edges = .ok (List.range size) := by
  have hplaced : place size edges size [] = List.range (0 + size) :=
    place_range hup size 0 (by omega)
  rw [Nat.zero_add] at hplaced
  unfold arrange
  dsimp only
  rw [hplaced, if_pos List.length_range]

/-- **What is arranged is the first order that follows the edges.** -/
theorem arrange_isFirst (hwithin : Within size edges) {order : List Nat}
    (h : arrange size edges = .ok order) : IsFirst size edges order := by
  have hperm := arrange_perm h
  have hplaced : place size edges size [] = order := by
    unfold arrange at h
    dsimp only at h
    split at h
    · cases h
      rfl
    · cases h
  obtain ⟨more, heq, hmore⟩ := place_extends size edges size []
  rw [hplaced, List.nil_append] at heq
  refine ⟨follows_of_extends hwithin hperm (heq ▸ hmore), fun other hother => ?_⟩
  have hfirst := place_first other [] (hother.extends_of_eq rfl)
  have hlength : other.length = size := by rw [hother.perm.length_eq, List.length_range]
  rwa [hlength, hplaced, List.nil_append] at hfirst

example : arrange 4 [(3, 0), (2, 1)] = .ok [2, 1, 3, 0] := rfl

/-! ### One more number -/

theorem next?_succ {placed : List Nat} {i : Nat} (h : next? size edges placed = some i) :
    next? (size + 1) edges placed = some i := by
  obtain ⟨hfree, hearlier⟩ := next?_eq_some_iff.mp h
  have hlt := hfree.lt
  refine next?_eq_some_iff.mpr ⟨⟨by omega, hfree.fresh, hfree.ready⟩, fun j hj hfree' => ?_⟩
  exact hearlier j hj ⟨by omega, hfree'.fresh, hfree'.ready⟩

/-- As long as there is always a smaller number to place, one more number changes nothing. -/
theorem place_succ (rounds : Nat) : ∀ placed,
    (place size edges rounds placed).length = placed.length + rounds →
      place (size + 1) edges rounds placed = place size edges rounds placed := by
  induction rounds with
  | zero => exact fun _ _ => rfl
  | succ rounds ih =>
      intro placed hlength
      unfold place at hlength ⊢
      cases hnext : next? size edges placed with
      | none =>
          rw [hnext] at hlength
          dsimp only at hlength
          omega
      | some i =>
          rw [hnext] at hlength
          rw [next?_succ hnext]
          dsimp only at hlength ⊢
          refine ih (placed ++ [i]) ?_
          rw [hlength, List.length_append, List.length_singleton]
          omega

theorem place_concat (rounds : Nat) : ∀ placed, place size edges (rounds + 1) placed =
    place size edges 1 (place size edges rounds placed) := by
  induction rounds with
  | zero => exact fun _ => rfl
  | succ rounds ih =>
      intro placed
      cases hnext : next? size edges placed with
      | none => simp [place, hnext]
      | some i =>
          have hstep : ∀ n, place size edges (n + 1) placed =
              place size edges n (placed ++ [i]) := by
            intro n
            rw [place, hnext]
          rw [hstep, hstep, ih]

/-- **One more number that no edge mentions is placed last.** -/
theorem arrange_succ (hwithin : Within size edges) {order : List Nat}
    (h : arrange size edges = .ok order) : arrange (size + 1) edges = .ok (order ++ [size]) := by
  have hperm := arrange_perm h
  have hplaced : place size edges size [] = order ∧ order.length = size := by
    unfold arrange at h
    dsimp only at h
    split at h
    · rename_i hlength
      cases h
      exact ⟨rfl, hlength⟩
    · cases h
  have hnext : next? (size + 1) edges order = some size := by
    have hmem : ∀ i, i ∈ order ↔ i < size := fun i => hperm.mem_iff.trans List.mem_range
    refine next?_eq_some_iff.mpr ⟨⟨by omega, ?_, ?_⟩, ?_⟩
    · simp [hmem]
    · intro a ha
      have hlt := (hwithin a size ha).2
      omega
    · intro j hj hfree
      exact hfree.fresh ((hmem j).mpr hj)
  have hall : place (size + 1) edges (size + 1) [] = order ++ [size] := by
    rw [place_concat, place_succ size [] (by simp [hplaced]), hplaced.1, place, hnext]
    rfl
  unfold arrange
  rw [hall, if_pos (by simp [hplaced.2])]

/-! ### Circles -/

/-- A chain whose last number leads to the first closes to a circle. -/
theorem isCircle_of_chain {round : List Nat} {first last : Nat}
    (hchain : round.IsChain fun a b => (a, b) ∈ edges) (hfirst : round.head? = some first)
    (hlast : round.getLast? = some last) (hedge : (last, first) ∈ edges) :
    IsCircle edges (round ++ [first]) := by
  obtain ⟨rest, rfl⟩ := List.head?_eq_some_iff.mp hfirst
  refine ⟨by simp, by rw [List.getLast?_concat]; rfl,
    List.isChain_append.mpr ⟨hchain, List.isChain_singleton _, ?_⟩⟩
  intro x hx y hy
  rw [hlast] at hx
  cases hx
  cases hy
  exact hedge

theorem exists_takeWhile_append {walk : List Nat} {current : Nat} (hmem : current ∈ walk) :
    ∃ after, walk = walk.takeWhile (· != current) ++ current :: after := by
  have hsplit : walk.takeWhile (· != current) ++ walk.dropWhile (· != current) = walk :=
    List.takeWhile_append_dropWhile
  cases hrest : walk.dropWhile (· != current) with
  | nil => exact absurd (List.dropWhile_eq_nil_iff.mp hrest current hmem) (by simp)
  | cons x after =>
      have hx := List.head?_dropWhile_not (· != current) walk
      rw [hrest] at hx hsplit
      rw [show x = current by simpa using hx] at hsplit
      exact ⟨after, hsplit.symm⟩

/-- A walk that comes to a number again closes a circle. -/
theorem isCircle_of_mem {walk : List Nat} {current : Nat} (hmem : current ∈ walk)
    (hchain : (current :: walk).IsChain fun a b => (a, b) ∈ edges) :
    IsCircle edges (walk.takeWhile (· != current) ++ [current] ++
      (walk.takeWhile (· != current) ++ [current]).head?.toList) := by
  obtain ⟨after, hwalk⟩ := exists_takeWhile_append hmem
  obtain ⟨first, hfirst⟩ : ∃ first,
      (walk.takeWhile (· != current) ++ [current]).head? = some first :=
    Option.isSome_iff_exists.mp (by simp)
  rw [List.append_cons] at hwalk
  rw [hwalk] at hchain
  obtain ⟨hback, hround⟩ := List.isChain_cons.mp hchain
  rw [hfirst]
  refine isCircle_of_chain hround.left_of_append hfirst List.getLast?_concat (hback first ?_)
  rw [List.head?_append, hfirst]
  rfl

/-- A walk among numbers that all have a predecessor among them closes a circle, if it has more
steps than there are numbers. -/
theorem circleFrom_isCircle {left : List Nat}
    (hleft : ∀ i ∈ left, ∃ a ∈ left, (a, i) ∈ edges) (steps : Nat) :
    ∀ walk current, current ∈ left → walk ⊆ left → walk.Nodup →
      ((current :: walk).IsChain fun a b => (a, b) ∈ edges) → left.length < steps + walk.length →
      IsCircle edges (circleFrom edges left steps walk current) := by
  induction steps with
  | zero =>
      intro walk current _ hsub hnodup _ hlength
      -- Steps do not run out: the walk is no longer than what it is taken from.
      have hshort := (hnodup.subperm hsub).length_le
      omega
  | succ steps ih =>
      intro walk current hcurrent hsub hnodup hchain hlength
      unfold circleFrom
      by_cases hmem : current ∈ walk
      · rw [if_pos (List.contains_iff_mem.mpr hmem)]
        exact isCircle_of_mem hmem hchain
      · rw [if_neg (by simpa using hmem)]
        obtain ⟨a, ha, hedge⟩ := hleft current hcurrent
        split
        · rename_i hnone
          have hedge' := List.find?_eq_none.mp hnone (a, current) hedge
          simp [ha] at hedge'
        · rename_i before after hfind
          have hfound := List.find?_some hfind
          simp only [Bool.and_eq_true, beq_iff_eq, List.contains_iff_mem] at hfound
          obtain ⟨rfl, hbefore⟩ := hfound
          refine ih _ before hbefore (List.cons_subset.mpr ⟨hcurrent, hsub⟩)
            (List.nodup_cons.mpr ⟨hmem, hnodup⟩)
            (List.isChain_cons_cons.mpr ⟨List.mem_of_find?_eq_some hfind, hchain⟩) ?_
          rw [List.length_cons]
          omega

/-- The numbers below the size that were not placed. -/
def leftOver (size : Nat) (placed : List Nat) : List Nat :=
  (List.range size).filter (!placed.contains ·)

theorem mem_leftOver {placed : List Nat} {i : Nat} :
    i ∈ leftOver size placed ↔ i < size ∧ i ∉ placed := by
  simp [leftOver]

theorem leftOver_ne_nil {placed : List Nat} (h : placed.length < size) :
    leftOver size placed ≠ [] := by
  intro hnil
  have hall : List.range size ⊆ placed := by
    intro i hi
    by_contra hfresh
    have hleft := mem_leftOver.mpr ⟨List.mem_range.mp hi, hfresh⟩
    rw [hnil] at hleft
    cases hleft
  have hlength := (List.nodup_range.subperm hall).length_le
  rw [List.length_range] at hlength
  omega

/-- If nothing can be placed, all that are left over have a predecessor among them. -/
theorem exists_predecessor (hwithin : Within size edges) {placed : List Nat}
    (hstuck : next? size edges placed = none) :
    ∀ i ∈ leftOver size placed, ∃ a ∈ leftOver size placed, (a, i) ∈ edges := by
  intro i hi
  obtain ⟨hlt, hfresh⟩ := mem_leftOver.mp hi
  by_contra hnone
  refine next?_eq_none_iff.mp hstuck i ⟨hlt, hfresh, fun a ha => ?_⟩
  by_contra hleft
  exact hnone ⟨a, mem_leftOver.mpr ⟨(hwithin a i ha).1, hleft⟩, ha⟩

/-- **If nothing is arranged, a circle is shown.** -/
theorem arrange_isCircle (hwithin : Within size edges) {circle : List Nat}
    (h : arrange size edges = .error circle) : IsCircle edges circle := by
  have hplaced : Partial size (place size edges size []) := place_partial size [] partial_nil
  have hle := (subperm_range hplaced).length_le
  rw [List.length_range] at hle
  unfold arrange at h
  dsimp only at h
  split at h
  · cases h
  · rename_i hlength
    cases h
    have hlt : (place size edges size []).length < size := by omega
    have hstuck : next? size edges (place size edges size []) = none :=
      next?_place_of_lt size [] (by simpa using hlt)
    obtain ⟨first, rest, hleft⟩ := List.exists_cons_of_ne_nil (leftOver_ne_nil hlt)
    have hshort : (leftOver size (place size edges size [])).length ≤ size := by
      have hfilter := List.length_filter_le (!(place size edges size []).contains ·)
        (List.range size)
      rwa [List.length_range] at hfilter
    show IsCircle edges (circleFrom edges (leftOver size (place size edges size [])) (size + 1) []
      ((leftOver size (place size edges size [])).headD 0))
    refine circleFrom_isCircle (exists_predecessor hwithin hstuck) (size + 1) [] _ ?_
      (List.nil_subset _) List.nodup_nil (List.isChain_singleton _) ?_
    · rw [hleft]
      exact List.mem_cons_self ..
    · rw [List.length_nil]
      omega

example : arrange 4 [(0, 2), (2, 3), (3, 0)] = .error [2, 3, 0, 2] := rfl

namespace IsCircle

variable {circle : List Nat} (h : IsCircle edges circle)
include h

/-- A circle begins with a number that comes again, after which every number is reached. -/
theorem exists_first : ∃ first rest, circle = first :: rest ∧ first ∈ rest ∧
    ∀ i ∈ rest, Relation.TransGen (fun a b => (a, b) ∈ edges) first i := by
  obtain ⟨hlength, hclosed, hchain⟩ := h
  have hreach : circle.Pairwise (Relation.TransGen fun a b => (a, b) ∈ edges) :=
    (hchain.imp fun _ _ hedge => .single hedge).pairwise
  match circle, hlength with
  | first :: second :: rest, _ =>
    rw [List.head?_cons, List.getLast?_cons_cons] at hclosed
    exact ⟨first, second :: rest, rfl, List.mem_of_getLast? hclosed.symm,
      (List.pairwise_cons.mp hreach).1⟩

theorem not_acyclic : ¬ Acyclic edges := by
  intro hacyclic
  obtain ⟨first, rest, -, hfirst, hreach⟩ := h.exists_first
  exact hacyclic first (hreach first hfirst)

theorem lt_size (hwithin : Within size edges) : ∀ i ∈ circle, i < size := by
  obtain ⟨first, rest, rfl, hfirst, hreach⟩ := h.exists_first
  intro i hi
  have hi' : i ∈ rest := by
    rcases List.mem_cons.mp hi with rfl | hi
    · exact hfirst
    · exact hi
  cases hreach i hi' with
  | single hedge => exact (hwithin _ _ hedge).2
  | tail _ hedge => exact (hwithin _ _ hedge).2

end IsCircle

end Precedence

namespace Slate

variable {slate : Slate}

/-- A priority is between two candidates that take part in a preferred action and in the one that
yields to it. -/
theorem mem_priorities {c d : Nat} : (c, d) ∈ slate.priorities ↔
    ∃ relation ∈ slate.plan.couplings.relations, ∃ winner loser,
      relation.preference? = some (winner, loser) ∧
        c ∈ slate.usersOf winner ∧ d ∈ slate.usersOf loser ∧ d ≠ c := by
  have hpairs := pairLt_separating natLt_separating natLt_separating
  simp only [priorities, mem_ascending hpairs, List.mem_flatMap, List.mem_filterMap, List.mem_map,
    List.mem_filter, bne_iff_ne, Prod.exists, Prod.mk.injEq]
  constructor
  · intro hmem
    obtain ⟨winner, loser, ⟨relation, hrelation, hprefers⟩, x, hx, y, ⟨hy, hne⟩, rfl, rfl⟩ := hmem
    exact ⟨relation, hrelation, winner, loser, hprefers, hx, hy, hne⟩
  · intro hmem
    obtain ⟨relation, hrelation, winner, loser, hprefers, hc, hd, hne⟩ := hmem
    exact ⟨winner, loser, ⟨relation, hrelation, hprefers⟩, c, hc, d, ⟨hd, hne⟩, rfl, rfl⟩

theorem priorities_within : Precedence.Within slate.size slate.priorities := by
  intro c d hcd
  obtain ⟨relation, -, winner, loser, -, hc, hd, -⟩ := mem_priorities.mp hcd
  exact ⟨lt_of_mem_usersOf hc, lt_of_mem_usersOf hd⟩

end Slate

namespace Contention

variable {reach : Reach} {contention : Contention} {slate : Slate}

theorem of_ofReach_eq_ok (hslate : Slate.ofReach reach = .ok slate)
    (h : ofReach reach = .ok contention) : contention.slate = slate ∧
      contention.priorities = slate.priorities ∧
      Precedence.arrange slate.size slate.priorities = .ok contention.order := by
  rw [ofReach_eq hslate] at h
  split at h
  · cases h
  · split at h
    · cases h
    · rename_i order harrange
      cases h
      exact ⟨rfl, rfl, harrange⟩

/-- **Candidates are considered in the first order that the priorities allow.**  Once the
candidates of a plan are found and none of them conflicts with itself, the contention is answered
exactly if the priorities run in no circle.  Its order is then the first of all orders in which
every priority goes forward, and that of the candidates themselves if there are no priorities.  If
it is refused, the fault names the candidates of a circle. -/
theorem order_canonical (hslate : Slate.ofReach reach = .ok slate)
    (hself : slate.selfConflict? = none) :
    ((∃ contention, ofReach reach = .ok contention) ↔ Precedence.Acyclic slate.priorities) ∧
      (∀ contention, ofReach reach = .ok contention →
        contention.slate = slate ∧ contention.priorities = slate.priorities ∧
          Precedence.IsFirst slate.size slate.priorities contention.order ∧
          (slate.priorities = [] → contention.order = List.range slate.size)) ∧
      ∀ fault, ofReach reach = .error fault → ∃ circle,
        fault = .priorityCycle (circle.map (nameIn slate)) ∧
          Precedence.IsCircle slate.priorities circle ∧ ∀ c ∈ circle, c < slate.size := by
  have heq := ofReach_eq hslate
  rw [hself] at heq
  dsimp only at heq
  refine ⟨⟨fun hanswer => ?_, fun hacyclic => ?_⟩, fun contention hcontention => ?_,
    fun fault hfault => ?_⟩
  · obtain ⟨contention, hcontention⟩ := hanswer
    obtain ⟨-, -, harrange⟩ := of_ofReach_eq_ok hslate hcontention
    exact (Precedence.arrange_isFirst Slate.priorities_within harrange).follows.acyclic
  · cases harrange : Precedence.arrange slate.size slate.priorities with
    | error circle =>
        have hcircle := Precedence.arrange_isCircle Slate.priorities_within harrange
        exact absurd hacyclic hcircle.not_acyclic
    | ok order =>
        rw [harrange] at heq
        exact ⟨_, heq⟩
  · obtain ⟨hsame, hpriorities, harrange⟩ := of_ofReach_eq_ok hslate hcontention
    refine ⟨hsame, hpriorities, Precedence.arrange_isFirst Slate.priorities_within harrange,
      fun hnone => ?_⟩
    rw [Precedence.arrange_range (by simp [hnone])] at harrange
    exact (Except.ok.inj harrange).symm
  · cases harrange : Precedence.arrange slate.size slate.priorities with
    | error circle =>
        rw [heq, harrange] at hfault
        cases hfault
        have hcircle := Precedence.arrange_isCircle Slate.priorities_within harrange
        exact ⟨circle, rfl, hcircle, hcircle.lt_size Slate.priorities_within⟩
    | ok order =>
        rw [heq, harrange] at hfault
        cases hfault

/-- The last of four is preferred to the first, and the third to the second. -/
def latePlan : Plan where
  blocks := .empty
  roster := crew ["fill", "drain", "flush", "halt"]
  calls := .empty
  couplings := ⟨[.before 3 0, .conflict 1 2 .right], [], [], []⟩

theorem latePlan_order : ∃ reach slate contention, Reach.ofPlan latePlan = .ok reach ∧
    Slate.ofReach reach = .ok slate ∧ slate.selfConflict? = none ∧
    ofReach reach = .ok contention ∧ slate.priorities = [(2, 1), (3, 0)] ∧
    contention.order = [2, 1, 3, 0] ∧ Precedence.Acyclic slate.priorities ∧
    Precedence.IsFirst slate.size slate.priorities contention.order := by
  have hpasses : passes latePlan (fun contention =>
      contention.priorities == [(2, 1), (3, 0)] && contention.order == [2, 1, 3, 0]) = true := by
    decide +kernel
  obtain ⟨reach, contention, hreach, hcontention, hfound⟩ := exists_of_passes hpasses
  obtain ⟨hpriorities, horder⟩ := Bool.and_eq_true_iff.mp hfound
  obtain ⟨slate, hslate, -⟩ := bind_eq_ok_iff.mp hcontention
  obtain ⟨hsame, hsame', -⟩ := of_ofReach_eq_ok hslate hcontention
  have hself : slate.selfConflict? = none := hsame ▸ (ofReach_workedOut hcontention).consistent
  obtain ⟨hacyclic, hanswer, -⟩ := order_canonical hslate hself
  exact ⟨reach, slate, contention, hreach, hslate, hself, hcontention,
    hsame' ▸ eq_of_beq hpriorities, eq_of_beq horder, hacyclic.mp ⟨contention, hcontention⟩,
    (hanswer contention hcontention).2.2.1⟩

end Contention

end Interlock
