/-
Ascending lists hold what they were made of, in order.

An element is left out of an ascending list only if the order cannot tell it from one that is
there, so membership is kept by every order under which that means equality.  If the order is
transitive besides, each element comes before all that follow it.  The orders in use are such:
they compare numbers, and pairs, lists and keys of numbers.
-/
import Mathlib.Data.List.Sort
import Interlock.Ascending

namespace Interlock

variable {α β : Type}

/-! ### Orders -/

/-- Two values are equal if neither comes before the other. -/
def Separating (lt : α → α → Bool) : Prop :=
  ∀ a b, lt a b = false → lt b a = false → a = b

theorem natLt_separating : Separating natLt := by
  intro a b hab hba
  simp only [natLt, decide_eq_false_iff_not] at hab hba
  omega

theorem pairLt_separating {first : α → α → Bool} {second : β → β → Bool}
    (hfirst : Separating first) (hsecond : Separating second) :
    Separating (pairLt first second) := by
  intro a b hab hba
  simp only [pairLt, Bool.or_eq_false_iff, Bool.and_eq_false_iff, Bool.not_eq_false'] at hab hba
  have h1 : a.1 = b.1 := hfirst a.1 b.1 hab.1 hba.1
  have h2 : a.2 = b.2 := by
    refine hsecond a.2 b.2 ?_ ?_
    · exact hab.2.resolve_left (by simp [hba.1])
    · exact hba.2.resolve_left (by simp [hab.1])
  exact Prod.ext h1 h2

theorem listLt_separating {lt : α → α → Bool} (hlt : Separating lt) : Separating (listLt lt) := by
  intro as
  induction as with
  | nil =>
      intro bs hab _
      cases bs with
      | nil => rfl
      | cons b bs => cases hab
  | cons a as ih =>
      intro bs hab hba
      cases bs with
      | nil => cases hba
      | cons b bs =>
          simp only [listLt, Bool.or_eq_false_iff, Bool.and_eq_false_iff, Bool.not_eq_false']
            at hab hba
          have hhead : a = b := hlt a b hab.1 hba.1
          have htail : as = bs := by
            refine ih bs ?_ ?_
            · exact hab.2.resolve_left (by simp [hba.1])
            · exact hba.2.resolve_left (by simp [hab.1])
          rw [hhead, htail]

theorem keyLt_separating {key : α → β} {lt : β → β → Bool} (hlt : Separating lt)
    (hkey : ∀ a b, key a = key b → a = b) : Separating (keyLt key lt) :=
  fun a b hab hba => hkey a b (hlt _ _ hab hba)

/-- The order tells any two values apart, and agrees with itself. -/
structure Ranking (lt : α → α → Bool) : Prop where
  separating : Separating lt
  irrefl : ∀ a, lt a a = false
  trans : ∀ a b c, lt a b = true → lt b c = true → lt a c = true

theorem natLt_iff {a b : Nat} : natLt a b = true ↔ a < b := by simp [natLt]

theorem natLt_ranking : Ranking natLt where
  separating := natLt_separating
  irrefl := fun a => by simp [natLt]
  trans := by
    intro a b c hab hbc
    rw [natLt_iff] at *
    omega

theorem pairLt_iff {first : α → α → Bool} (hfirst : Ranking first) {second : β → β → Bool}
    {a b : α × β} : pairLt first second a b = true ↔
      first a.1 b.1 = true ∨ a.1 = b.1 ∧ second a.2 b.2 = true := by
  simp only [pairLt, Bool.or_eq_true, Bool.and_eq_true, Bool.not_eq_true']
  by_cases hab : first a.1 b.1 = true
  · simp [hab]
  · have hab' : first a.1 b.1 = false := by simpa using hab
    have heq : first b.1 a.1 = false ↔ a.1 = b.1 := by
      constructor
      · exact hfirst.separating a.1 b.1 hab'
      · intro h
        rw [h]
        exact hfirst.irrefl b.1
    rw [heq]

theorem pairLt_ranking {first : α → α → Bool} {second : β → β → Bool} (hfirst : Ranking first)
    (hsecond : Ranking second) : Ranking (pairLt first second) where
  separating := pairLt_separating hfirst.separating hsecond.separating
  irrefl := fun a => by simp [pairLt, hfirst.irrefl, hsecond.irrefl]
  trans := by
    intro a b c hab hbc
    rw [pairLt_iff hfirst] at *
    rcases hab with hab | ⟨heq, hab⟩
    · rcases hbc with hbc | ⟨heq', -⟩
      · exact .inl (hfirst.trans _ _ _ hab hbc)
      · exact .inl (heq' ▸ hab)
    · rcases hbc with hbc | ⟨heq', hbc⟩
      · exact .inl (heq ▸ hbc)
      · exact .inr ⟨heq.trans heq', hsecond.trans _ _ _ hab hbc⟩

theorem listLt_cons {lt : α → α → Bool} (hlt : Ranking lt) {a b : α} {as bs : List α} :
    listLt lt (a :: as) (b :: bs) = true ↔ lt a b = true ∨ a = b ∧ listLt lt as bs = true := by
  show pairLt lt (listLt lt) (a, as) (b, bs) = true ↔ _
  rw [pairLt_iff hlt]

theorem listLt_ranking {lt : α → α → Bool} (hlt : Ranking lt) : Ranking (listLt lt) where
  separating := listLt_separating hlt.separating
  irrefl := by
    intro l
    induction l with
    | nil => rfl
    | cons a rest ih => simp [listLt, hlt.irrefl, ih]
  trans := by
    intro as
    induction as with
    | nil =>
        intro bs cs hab hbc
        cases cs with
        | nil => simp [listLt] at hbc
        | cons c cs => rfl
    | cons a as ih =>
        intro bs cs hab hbc
        cases bs with
        | nil => simp [listLt] at hab
        | cons b bs =>
            cases cs with
            | nil => simp [listLt] at hbc
            | cons c cs =>
                rw [listLt_cons hlt] at *
                rcases hab with hab | ⟨heq, hab⟩
                · rcases hbc with hbc | ⟨heq', -⟩
                  · exact .inl (hlt.trans _ _ _ hab hbc)
                  · exact .inl (heq' ▸ hab)
                · rcases hbc with hbc | ⟨heq', hbc⟩
                  · exact .inl (heq ▸ hbc)
                  · exact .inr ⟨heq.trans heq', ih _ _ hab hbc⟩

/-- Lists of numbers are in the order of the library. -/
theorem listLt_natLt_iff {as : List Nat} :
    ∀ {bs : List Nat}, listLt natLt as bs = true ↔ as < bs := by
  induction as with
  | nil => intro bs; cases bs <;> simp [listLt]
  | cons a as ih =>
      intro bs
      cases bs with
      | nil => simp [listLt]
      | cons b bs => rw [listLt_cons natLt_ranking, List.cons_lt_cons_iff, natLt_iff, ih]

theorem keyLt_ranking {key : α → β} {lt : β → β → Bool} (hlt : Ranking lt)
    (hkey : ∀ a b, key a = key b → a = b) : Ranking (keyLt key lt) where
  separating := keyLt_separating hlt.separating hkey
  irrefl := fun a => hlt.irrefl (key a)
  trans := fun _ _ _ => hlt.trans _ _ _

/-! ### Members -/

theorem mem_insertAscending {lt : α → α → Bool} (hlt : Separating lt) {x y : α} {l : List α} :
    y ∈ insertAscending lt x l ↔ y = x ∨ y ∈ l := by
  induction l with
  | nil => simp [insertAscending]
  | cons z rest ih =>
      unfold insertAscending
      by_cases hxz : lt x z = true
      · rw [if_pos hxz, List.mem_cons]
      · rw [if_neg hxz]
        by_cases hzx : lt z x = true
        · rw [if_pos hzx, List.mem_cons, ih, List.mem_cons]
          exact or_left_comm
        · rw [if_neg hzx]
          obtain rfl : x = z := hlt x z (by simpa using hxz) (by simpa using hzx)
          simp

theorem insertAscending_perm {lt : α → α → Bool} (hlt : Separating lt) {x : α} {l : List α}
    (hx : x ∉ l) : (insertAscending lt x l).Perm (x :: l) := by
  induction l with
  | nil => exact List.Perm.refl [x]
  | cons z rest ih =>
      unfold insertAscending
      by_cases hxz : lt x z = true
      · rw [if_pos hxz]
      · rw [if_neg hxz]
        by_cases hzx : lt z x = true
        · rw [if_pos hzx]
          have hrest : x ∉ rest := fun h => hx (List.mem_cons_of_mem _ h)
          exact ((ih hrest).cons z).trans (List.Perm.swap x z rest)
        · have heq : x = z := hlt x z (by simpa using hxz) (by simpa using hzx)
          exact absurd (by simp [heq]) hx

theorem mem_ascending {lt : α → α → Bool} (hlt : Separating lt) {x : α} {l : List α} :
    x ∈ ascending lt l ↔ x ∈ l := by
  induction l with
  | nil => simp [ascending]
  | cons y rest ih =>
      show x ∈ insertAscending lt y (ascending lt rest) ↔ _
      rw [mem_insertAscending hlt, ih, List.mem_cons]

/-! ### Order -/

theorem insertAscending_pairwise {lt : α → α → Bool} (hlt : Ranking lt) {x : α} {l : List α}
    (h : l.Pairwise fun a b => lt a b = true) :
    (insertAscending lt x l).Pairwise fun a b => lt a b = true := by
  induction l with
  | nil => simp [insertAscending]
  | cons y rest ih =>
      obtain ⟨hy, hrest⟩ := List.pairwise_cons.mp h
      unfold insertAscending
      by_cases hxy : lt x y = true
      · rw [if_pos hxy]
        refine List.pairwise_cons.mpr ⟨fun z hz => ?_, h⟩
        rcases List.mem_cons.mp hz with rfl | hz
        · exact hxy
        · exact hlt.trans x y z hxy (hy z hz)
      · rw [if_neg hxy]
        by_cases hyx : lt y x = true
        · rw [if_pos hyx]
          refine List.pairwise_cons.mpr ⟨fun z hz => ?_, ih hrest⟩
          rcases (mem_insertAscending hlt.separating).mp hz with rfl | hz
          · exact hyx
          · exact hy z hz
        · rw [if_neg hyx]
          exact h

/-- Each element of an ascending list comes before all that follow it. -/
theorem ascending_pairwise {lt : α → α → Bool} (hlt : Ranking lt) (l : List α) :
    (ascending lt l).Pairwise fun a b => lt a b = true := by
  induction l with
  | nil => exact List.Pairwise.nil
  | cons x rest ih => exact insertAscending_pairwise hlt ih

theorem nodup_of_pairwise {lt : α → α → Bool} (hlt : Ranking lt) {l : List α}
    (h : l.Pairwise fun a b => lt a b = true) : l.Nodup := by
  refine h.imp fun {a b} hab heq => ?_
  rw [heq, hlt.irrefl b] at hab
  cases hab

/-- An ascending list is known by its members. -/
theorem ascending_eq_of_mem_iff {lt : α → α → Bool} (hlt : Ranking lt) {l l' : List α}
    (h : ∀ a, a ∈ l ↔ a ∈ l') : ascending lt l = ascending lt l' := by
  have hirrefl : Std.Irrefl fun a b => lt a b = true := ⟨fun a ha => by
    rw [hlt.irrefl a] at ha
    cases ha⟩
  have hantisymm : Std.Antisymm fun a b => lt a b = true := ⟨fun a b hab hba =>
    absurd (hlt.trans a b a hab hba) (by simp [hlt.irrefl])⟩
  refine (ascending_pairwise hlt l).eq_of_mem_iff (ascending_pairwise hlt l') fun a => ?_
  rw [mem_ascending hlt.separating, mem_ascending hlt.separating, h a]

/-! ### Pairs -/

/-- What comes after all others is put last. -/
theorem insertAscending_concat {lt : α → α → Bool} {x y : α} (h : lt y x = true) (l : List α) :
    insertAscending lt y (l ++ [x]) = insertAscending lt y l ++ [x] := by
  induction l with
  | nil => simp [insertAscending, h]
  | cons z rest ih =>
      rw [List.cons_append]
      unfold insertAscending
      rw [ih]
      split
      · rfl
      · split <;> rfl

theorem ascending_concat {lt : α → α → Bool} {x : α} {l : List α} (h : ∀ y ∈ l, lt y x = true) :
    ascending lt (l ++ [x]) = ascending lt l ++ [x] := by
  induction l with
  | nil => rfl
  | cons y rest ih =>
      obtain ⟨hy, hrest⟩ := List.forall_mem_cons.mp h
      show insertAscending lt y (ascending lt (rest ++ [x])) =
        insertAscending lt y (ascending lt rest) ++ [x]
      rw [ih hrest, insertAscending_concat hy]

theorem ordered_comm (a b : Nat) : ordered a b = ordered b a := by
  unfold ordered
  rcases Nat.lt_trichotomy a b with h | rfl | h
  · rw [if_pos (by omega), if_neg (by omega)]
  · rfl
  · rw [if_neg (by omega), if_pos (by omega)]

theorem ordered_of_le {a b : Nat} (h : a ≤ b) : ordered a b = (a, b) := if_pos h

theorem ordered_eq_self_iff {a b : Nat} : ordered a b = (a, b) ↔ a ≤ b := by
  unfold ordered
  split
  · simpa
  · simp only [Prod.mk.injEq]
    omega

theorem ordered_or (a b : Nat) : ordered a b = (a, b) ∨ ordered a b = (b, a) := by
  rcases Nat.le_total a b with h | h
  · exact .inl (ordered_of_le h)
  · rw [ordered_comm]
    exact .inr (ordered_of_le h)

theorem ordered_ordered (a b : Nat) : ordered (ordered a b).1 (ordered a b).2 = ordered a b := by
  rcases ordered_or a b with h | h
  · rw [h]
    exact h
  · rw [h, ordered_comm]
    exact h

theorem ordered_eq_iff {a b x y : Nat} :
    ordered a b = ordered x y ↔ (a = x ∧ b = y) ∨ (a = y ∧ b = x) := by
  unfold ordered
  split <;> split <;> simp only [Prod.mk.injEq] <;> omega

/-- Two different elements of a list form a pair in the order in which they stand. -/
theorem mem_pairs_or {l : List α} {x y : α} (hx : x ∈ l) (hy : y ∈ l) (hne : x ≠ y) :
    (x, y) ∈ pairs l ∨ (y, x) ∈ pairs l := by
  induction l with
  | nil => cases hx
  | cons z rest ih =>
      simp only [pairs, List.mem_append, List.mem_map, Prod.mk.injEq]
      rcases List.mem_cons.mp hx with rfl | hxr
      · rcases List.mem_cons.mp hy with rfl | hyr
        · exact absurd rfl hne
        · exact .inl (.inl ⟨y, hyr, rfl, rfl⟩)
      · rcases List.mem_cons.mp hy with rfl | hyr
        · exact .inr (.inl ⟨x, hxr, rfl, rfl⟩)
        · rcases ih hxr hyr with h | h
          · exact .inl (.inr h)
          · exact .inr (.inr h)

theorem mem_of_mem_pairs {l : List α} {x y : α} (h : (x, y) ∈ pairs l) : x ∈ l ∧ y ∈ l := by
  induction l with
  | nil => cases h
  | cons z rest ih =>
      simp only [pairs, List.mem_append, List.mem_map, Prod.mk.injEq] at h
      rcases h with ⟨w, hw, rfl, rfl⟩ | h
      · exact ⟨List.mem_cons_self .., List.mem_cons_of_mem _ hw⟩
      · obtain ⟨hx, hy⟩ := ih h
        exact ⟨List.mem_cons_of_mem _ hx, List.mem_cons_of_mem _ hy⟩

theorem ne_of_mem_pairs {l : List α} (hnodup : l.Nodup) {x y : α} (h : (x, y) ∈ pairs l) :
    x ≠ y := by
  induction l with
  | nil => cases h
  | cons z rest ih =>
      rw [List.nodup_cons] at hnodup
      simp only [pairs, List.mem_append, List.mem_map, Prod.mk.injEq] at h
      rcases h with ⟨w, hw, rfl, rfl⟩ | h
      · rintro rfl
        exact hnodup.1 hw
      · exact ih hnodup.2 h

end Interlock
