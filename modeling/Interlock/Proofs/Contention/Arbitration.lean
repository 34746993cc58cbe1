/-
Greedy arbitration.

Candidates are considered in the order of the contention, and one that could run does so unless
one before it that conflicts with it does.  This determines which candidates run, by recursion
along the order, and makes the set of those maximal among the sets that hold no conflict, and the
first of them.
-/
import Interlock.Proofs.Contention.Conflict

namespace Interlock.Contention

variable {reach : Reach} {contention : Contention}

/-- The first candidate is considered before the second. -/
def Precedes (contention : Contention) (d c : Nat) : Prop :=
  ∃ before after, contention.order = before ++ c :: after ∧ d ∈ before

/-- What arbitration makes of the candidates that could run, if it is greedy. -/
structure Arbitrates (contention : Contention) (could does : Nat → Prop) : Prop where
  /-- A candidate runs if it could and no earlier rival does. -/
  greedy : ∀ c < contention.size, does c ↔ could c ∧
    ∀ d < contention.size, does d → contention.Precedes d c → contention.inConflict d c = false
  sound : ∀ c < contention.size, does c → could c
  /-- No two that run conflict. -/
  free : ∀ c < contention.size, ∀ d < contention.size, does c → does d →
    contention.inConflict c d = false
  /-- Whatever could run and does not has an earlier rival that does. -/
  maximal : ∀ c < contention.size, could c → ¬ does c →
    ∃ d < contention.size, does d ∧ contention.Precedes d c ∧ contention.inConflict d c = true
  /-- Where another set without conflicts first differs, it leaves a candidate out that runs. -/
  first : ∀ others : Nat → Prop, (∀ c < contention.size, others c → could c) →
    (∀ c < contention.size, ∀ d < contention.size, others c → others d →
      contention.inConflict c d = false) →
    (∀ c < contention.size, others c ↔ does c) ∨
      ∃ c < contention.size, does c ∧ ¬ others c ∧
        ∀ d < contention.size, contention.Precedes d c → (others d ↔ does d)

namespace WorkedOut

variable (h : WorkedOut reach contention)
include h

theorem order_nodup : contention.order.Nodup := h.order_perm.nodup_iff.mpr List.nodup_range

theorem mem_order {c : Nat} : c ∈ contention.order ↔ c < contention.size := by
  rw [h.order_perm.mem_iff, List.mem_range]

/-- Where a candidate stands in the order, those that precede it stand before. -/
theorem precedes_iff {c d : Nat} {before after : List Nat}
    (hsplit : contention.order = before ++ c :: after) :
    contention.Precedes d c ↔ d ∈ before :=
  Precedence.before_iff h.order_nodup hsplit

/-- Of two different candidates one precedes the other. -/
theorem precedes_or {c d : Nat} (hc : c < contention.size) (hd : d < contention.size)
    (hne : c ≠ d) : contention.Precedes d c ∨ contention.Precedes c d := by
  obtain ⟨before, after, hsplit⟩ := List.append_of_mem (h.mem_order.mpr hc)
  have hmem := h.mem_order.mpr hd
  rw [hsplit, List.mem_append, List.mem_cons] at hmem
  rcases hmem with hmem | rfl | hmem
  · exact .inl ⟨before, after, hsplit, hmem⟩
  · exact absurd rfl hne
  · obtain ⟨between, rest, hafter⟩ := List.append_of_mem hmem
    exact .inr ⟨before ++ c :: between, rest, by rw [hsplit, hafter]; simp, by simp⟩

/-- Two sets of candidates are the same, or there is a first candidate in which they differ. -/
theorem agree_or_differ (others does : Nat → Prop) :
    (∀ c < contention.size, others c ↔ does c) ∨ ∃ c < contention.size, ¬ (others c ↔ does c) ∧
      ∀ d, contention.Precedes d c → (others d ↔ does d) := by
  -- By induction on what of the order is still to be compared.
  have hrest : ∀ after before, contention.order = before ++ after →
      (∀ d ∈ before, others d ↔ does d) →
      (∀ d ∈ contention.order, others d ↔ does d) ∨
        ∃ c < contention.size, ¬ (others c ↔ does c) ∧
          ∀ d, contention.Precedes d c → (others d ↔ does d) := by
    intro after
    induction after with
    | nil =>
        intro before hsplit hsame
        rw [List.append_nil] at hsplit
        exact .inl (hsplit ▸ hsame)
    | cons c rest ih =>
        intro before hsplit hsame
        have hc : c < contention.size := h.mem_order.mp (by simp [hsplit])
        by_cases hiff : others c ↔ does c
        · refine ih (before ++ [c]) (by simp [hsplit]) fun d hd => ?_
          rcases List.mem_append.mp hd with hd | hd
          · exact hsame d hd
          · rw [List.mem_singleton.mp hd]
            exact hiff
        · exact .inr ⟨c, hc, hiff, fun d hd => hsame d ((h.precedes_iff hsplit).mp hd)⟩
  rcases hrest contention.order [] rfl (fun d hd => absurd hd (by simp)) with hall | hfirst
  · exact .inl fun c hc => hall c (h.mem_order.mpr hc)
  · exact .inr hfirst

/-- **Greedy arbitration answers the first maximal set without conflicts.** -/
theorem arbitrates {could does : Nat → Prop}
    (hgreedy : ∀ c < contention.size, does c ↔ could c ∧ ∀ d < contention.size, does d →
      contention.Precedes d c → contention.inConflict d c = false) :
    contention.Arbitrates could does := by
  have hsound : ∀ c < contention.size, does c → could c :=
    fun c hc hdoes => ((hgreedy c hc).mp hdoes).1
  refine ⟨hgreedy, hsound, ?_, ?_, ?_⟩
  · intro c hc d hd hdoesc hdoesd
    by_cases hne : c = d
    · rw [hne]
      exact h.inConflict_self d
    · rcases h.precedes_or hc hd hne with hbefore | hbefore
      · rw [inConflict_comm]
        exact ((hgreedy c hc).mp hdoesc).2 d hd hdoesd hbefore
      · exact ((hgreedy d hd).mp hdoesd).2 c hc hdoesc hbefore
  · intro c hc hcould hnot
    by_contra hnone
    refine hnot ((hgreedy c hc).mpr ⟨hcould, fun d hd hdoes hbefore => ?_⟩)
    by_contra hconflict
    exact hnone ⟨d, hd, hdoes, hbefore, by simpa using hconflict⟩
  · intro others hcould hfree
    refine (h.agree_or_differ others does).imp_right ?_
    rintro ⟨c, hc, hdiffer, hearlier⟩
    have hnot : ¬ others c := by
      intro hother
      refine hdiffer ⟨fun _ => (hgreedy c hc).mpr ⟨hcould c hc hother, ?_⟩, fun _ => hother⟩
      intro d hd hdoes hbefore
      exact hfree d hd c hc ((hearlier d hbefore).mpr hdoes) hother
    have hdoes : does c := by
      by_contra hdoes
      exact hdiffer ⟨fun hother => absurd hother hnot, fun hc => absurd hc hdoes⟩
    exact ⟨c, hc, hdoes, hnot, fun d _ hd => hearlier d hd⟩

end WorkedOut

end Interlock.Contention
