/-
The eager policy is greedy arbitration.

A grant is made of the request and of the grants decided before it that stand against it, which
are those of the rivals that precede it in the order.  So the grants decided so far are greedy
among themselves, whatever is decided later, and in the end they are greedy among all candidates.
-/
import Mathlib.Data.List.GetD
import Interlock.Granting
import Interlock.Proofs.Circuit.Completing
import Interlock.Proofs.Circuit.Gates
import Interlock.Proofs.Contention.Arbitration

namespace Interlock.Policy

variable {reach : Reach} {contention : Contention} {runnable : List NodeId}

/-- The policy only adds to the circuit, and answers one grant for every candidate. -/
structure Serves (policy : Policy) : Prop where
  grows : ∀ contention runnable, (policy.grants contention runnable).Grows
  length_eq : ∀ {contention runnable c grants c'},
    (policy.grants contention runnable).Yields c grants c' → grants.length = contention.size

/-- The grants decided so far that stand against a candidate. -/
def blockersOf (contention : Contention) (decided : List (Nat × NodeId)) (current : Nat) :
    List NodeId :=
  (contention.rivals current).filterMap fun rival => decided.lookup rival

theorem mem_rivals {c d : Nat} :
    d ∈ contention.rivals c ↔ d < contention.size ∧ contention.inConflict c d = true := by
  simp only [Contention.rivals, List.mem_filter, List.mem_range]

theorem mem_blockersOf {decided : List (Nat × NodeId)} {current : Nat} {node : NodeId} :
    node ∈ blockersOf contention decided current ↔ ∃ d < contention.size,
      contention.inConflict current d = true ∧ decided.lookup d = some node := by
  simp only [blockersOf, List.mem_filterMap, mem_rivals, and_assoc]

/-! ### One grant -/

theorem eagerGrant_nil {decided : List (Nat × NodeId)} {current : Nat}
    (h : blockersOf contention decided current = []) :
    eagerGrant contention runnable decided current = pure (runnable.getD current 0) := by
  unfold eagerGrant
  unfold blockersOf at h
  rw [h]

theorem eagerGrant_cons {decided : List (Nat × NodeId)} {current : Nat} {first : NodeId}
    {rest : List NodeId} (h : blockersOf contention decided current = first :: rest) :
    eagerGrant contention runnable decided current = (do
      let blocked ← Build.orAll (first :: rest)
      Build.and (runnable.getD current 0) (← Build.not blocked)) := by
  unfold eagerGrant
  unfold blockersOf at h
  rw [h]

/-- A candidate is granted if it could run and nothing stands against it. -/
theorem eagerGrant_ensures (decided : List (Nat × NodeId)) (current : Nat) :
    (eagerGrant contention runnable decided current).Ensures fun s node =>
      s.IsBit (runnable.getD current 0) →
      (∀ b ∈ blockersOf contention decided current, s.IsBit b) →
      s.IsBit node ∧ (s.bit node = true ↔ s.bit (runnable.getD current 0) = true ∧
        ∀ b ∈ blockersOf contention decided current, s.bit b = false) := by
  cases hblockers : blockersOf contention decided current with
  | nil =>
      rw [eagerGrant_nil hblockers]
      exact Build.pure_ensures fun s hrequest _ => ⟨hrequest, by simp⟩
  | cons first rest =>
      rw [eagerGrant_cons hblockers]
      refine Build.bind_ensures (Build.orAll_ensures _) fun blocked => ?_
      refine Build.bind_ensures (Build.not_ensures blocked) fun clear => ?_
      refine (Build.and_ensures _ clear).mono fun s node hand hnot hor hrequest hbits => ?_
      have hblocked : s.IsBit blocked := hor.1.mpr hbits
      refine ⟨hand.1.mp hrequest, ?_⟩
      rw [hand.2.2, hnot.2 hblocked, hor.2, Bool.and_eq_true, Bool.not_eq_true', List.any_eq_false]
      simp only [Bool.not_eq_true]

/-- A grant is made of bits if the request is one and the grants decided before are. -/
theorem eagerGrant_makes {J : Circuit → Prop} (hJ : Circuit.Lasts J) {c : Circuit} (hc : J c)
    {given : Set NodeId} {decided : List (Nat × NodeId)} {current : Nat}
    (hrequest : c.Signal given 1 (runnable.getD current 0))
    (hdecided : ∀ d node, decided.lookup d = some node → c.Signal given 1 node) :
    (eagerGrant contention runnable decided current).Makes c J given 1 := by
  cases hblockers : blockersOf contention decided current with
  | nil =>
      rw [eagerGrant_nil hblockers]
      exact Build.pure_makes hc hrequest
  | cons first rest =>
      rw [eagerGrant_cons hblockers]
      have hbits : ∀ b ∈ first :: rest, c.Signal given 1 b := by
        intro b hb
        rw [← hblockers, mem_blockersOf] at hb
        obtain ⟨d, -, -, hd⟩ := hb
        exact hdecided d b hd
      refine Build.bind_answers (Build.orAll_makes hJ hc hbits) fun blocked c₁ hle₁ h₁ => ?_
      refine Build.bind_answers (Build.not_makes hJ h₁.1 h₁.2) fun clear c₂ hle₂ h₂ => ?_
      exact Build.binary_makes hJ h₂.1 .and ((hrequest.mono hle₁).mono hle₂) h₂.2

/-! ### All grants -/

/-- The grants decided so far are greedy among themselves. -/
structure Decided (contention : Contention) (runnable : List NodeId) (done : List Nat)
    (s : Settled) (decided : List (Nat × NodeId)) : Prop where
  mem_done : ∀ c node, decided.lookup c = some node → c ∈ done
  isBit : ∀ c node, decided.lookup c = some node → s.IsBit node
  granted : ∀ c node, decided.lookup c = some node →
    (s.bit node = true ↔ s.bit (runnable.getD c 0) = true ∧
      ∀ d node', decided.lookup d = some node' → s.bit node' = true →
        contention.Precedes d c → contention.inConflict d c = false)

theorem lookup_cons {decided : List (Nat × NodeId)} {current c : Nat} {node : NodeId} :
    ((current, node) :: decided).lookup c =
      if c = current then some node else decided.lookup c := by
  rw [List.lookup_cons]
  by_cases hc : c = current
  · simp [hc]
  · rw [if_neg hc, beq_eq_false_iff_ne.mpr hc]

section Step

variable (h : Contention.WorkedOut reach contention) {s : Settled} {done rest : List Nat}
  {current : Nat} (hsplit : contention.order = done ++ current :: rest)
  {decided : List (Nat × NodeId)} {node : NodeId}
  (hdecided : Decided contention runnable done s decided)
include h hsplit

theorem current_not_mem : current ∉ done := by
  have hnodup := h.order_nodup
  rw [hsplit] at hnodup
  exact fun hc => (List.nodup_append.mp hnodup).2.2 current hc current (by simp) rfl

include hdecided

/-- Nothing stands against a candidate if no rival that precedes it is granted. -/
theorem blockersOf_low_iff :
    (∀ b ∈ blockersOf contention decided current, s.bit b = false) ↔
      ∀ d n, ((current, node) :: decided).lookup d = some n → s.bit n = true →
        contention.Precedes d current → contention.inConflict d current = false := by
  constructor
  · intro hlow d n hd hrun hbefore
    rw [lookup_cons] at hd
    split at hd
    · rename_i heq
      rw [heq]
      exact h.inConflict_self current
    · by_contra hconflict
      rw [Bool.not_eq_false, Contention.inConflict_comm] at hconflict
      have hsize : d < contention.size := by
        obtain ⟨before, after, horder, hmem⟩ := hbefore
        exact h.mem_order.mp (by rw [horder]; exact List.mem_append_left _ hmem)
      rw [hlow n (mem_blockersOf.mpr ⟨d, hsize, hconflict, hd⟩)] at hrun
      cases hrun
  · intro hfree b hb
    obtain ⟨d, -, hconflict, hd⟩ := mem_blockersOf.mp hb
    have hdone : d ∈ done := hdecided.mem_done d b hd
    have hne : d ≠ current := fun heq => current_not_mem h hsplit (heq ▸ hdone)
    by_contra hrun
    have hfalse := hfree d b (by rw [lookup_cons, if_neg hne]; exact hd) (by simpa using hrun)
      ((h.precedes_iff hsplit).mpr hdone)
    rw [Contention.inConflict_comm, hconflict] at hfalse
    cases hfalse

/-- What is decided now does not precede what was decided before. -/
theorem not_precedes_of_lookup {c : Nat} {n : NodeId} (hc : decided.lookup c = some n) :
    ¬ contention.Precedes current c := by
  intro hbefore
  obtain ⟨l, r, hlr⟩ := List.append_of_mem (hdecided.mem_done c n hc)
  have hsplit' : contention.order = l ++ c :: (r ++ current :: rest) := by
    rw [hsplit, hlr]
    simp
  have hmem := (h.precedes_iff hsplit').mp hbefore
  exact current_not_mem h hsplit (by rw [hlr]; exact List.mem_append_left _ hmem)

/-- One more grant leaves the grants greedy. -/
theorem decided_step (hbit : s.IsBit node)
    (hnode : s.bit node = true ↔ s.bit (runnable.getD current 0) = true ∧
      ∀ b ∈ blockersOf contention decided current, s.bit b = false) :
    Decided contention runnable (done ++ [current]) s ((current, node) :: decided) := by
  refine ⟨fun c n hc => ?_, fun c n hc => ?_, fun c n hc => ?_⟩
  · rw [lookup_cons] at hc
    split at hc
    · rename_i heq
      simp [heq]
    · exact List.mem_append_left _ (hdecided.mem_done c n hc)
  · rw [lookup_cons] at hc
    split at hc
    · cases hc
      exact hbit
    · exact hdecided.isBit c n hc
  · rw [lookup_cons] at hc
    split at hc
    · rename_i heq
      subst heq
      cases hc
      rw [hnode, blockersOf_low_iff h hsplit hdecided]
    · rw [hdecided.granted c n hc]
      -- What is decided now comes after this one in the order, so it says nothing about it.
      refine and_congr_right fun _ => ⟨fun hfree d n' hd hrun hbefore => ?_,
        fun hfree d n' hd hrun hbefore => ?_⟩
      · rw [lookup_cons] at hd
        split at hd
        · rename_i heq
          exact absurd (heq ▸ hbefore) (not_precedes_of_lookup h hsplit hdecided hc)
        · exact hfree d n' hd hrun hbefore
      · have hne : d ≠ current :=
          fun heq => current_not_mem h hsplit (heq ▸ hdecided.mem_done d n' hd)
        exact hfree d n' (by rw [lookup_cons, if_neg hne]; exact hd) hrun hbefore

end Step

theorem eagerDecide_ensures (h : Contention.WorkedOut reach contention) :
    (eagerDecide contention runnable).Ensures fun s decided =>
      (∀ c < contention.size, s.IsBit (runnable.getD c 0)) →
        Decided contention runnable contention.order s decided := by
  have hstep : ∀ done current rest, contention.order = done ++ current :: rest → ∀ decided,
      (do return (current, ← eagerGrant contention runnable decided current) :: decided :
        Build (List (Nat × NodeId))).Ensures fun s decided' =>
          ((∀ c < contention.size, s.IsBit (runnable.getD c 0)) →
            Decided contention runnable done s decided) →
          (∀ c < contention.size, s.IsBit (runnable.getD c 0)) →
            Decided contention runnable (done ++ [current]) s decided' := by
    intro done current rest hsplit decided
    refine Build.bind_ensures (eagerGrant_ensures decided current) fun node => ?_
    refine Build.pure_ensures fun s hgrant hdone hbits => ?_
    have hcurrent : current < contention.size := h.mem_order.mp (by simp [hsplit])
    have hdecided := hdone hbits
    have hblockers : ∀ b ∈ blockersOf contention decided current, s.IsBit b := by
      intro b hb
      obtain ⟨d, -, -, hd⟩ := mem_blockersOf.mp hb
      exact hdecided.isBit d b hd
    obtain ⟨hbit, hnode⟩ := hgrant (hbits current hcurrent) hblockers
    exact decided_step h hsplit hdecided hbit hnode
  refine (Build.foldlM_ensures (I := fun done s decided =>
    (∀ c < contention.size, s.IsBit (runnable.getD c 0)) →
      Decided contention runnable done s decided) hstep []).mono fun s decided hall => ?_
  exact hall fun _ => ⟨by simp, by simp, by simp⟩

/-- Candidates whose requests are bits are all decided. -/
theorem eagerDecide_answers {J : Circuit → Prop} (hJ : Circuit.Lasts J) {c : Circuit} (hc : J c)
    {given : Set NodeId}
    (hrequests : ∀ current ∈ contention.order, c.Signal given 1 (runnable.getD current 0)) :
    (eagerDecide contention runnable).Answers c fun c' decided => J c' ∧
      (∀ d node, decided.lookup d = some node → c'.Signal given 1 node) ∧
        ∀ d ∈ contention.order, ∃ node, decided.lookup d = some node := by
  refine Build.foldlM_answers (I := fun done c' (decided : List (Nat × NodeId)) => J c' ∧
    (∀ d node, decided.lookup d = some node → c'.Signal given 1 node) ∧
      ∀ d ∈ done, ∃ node, decided.lookup d = some node) ?_ ⟨hc, nofun, nofun⟩
  intro done current rest hsplit decided c' hle ⟨hc', hdecided, hall⟩
  have hrequest := (hrequests current (by simp [hsplit])).mono hle
  refine Build.bind_answers (eagerGrant_makes hJ hc' hrequest hdecided) fun node c₁ hle₁ h₁ => ?_
  refine Build.pure_answers ⟨h₁.1, fun d n hd => ?_, fun d hd => ?_⟩
  · rw [lookup_cons] at hd
    split at hd
    · cases hd
      exact h₁.2
    · exact (hdecided d n hd).mono hle₁
  · rw [lookup_cons]
    by_cases heq : d = current
    · exact ⟨node, if_pos heq⟩
    · rw [if_neg heq]
      exact hall d (by simpa [heq] using hd)

/-! ### The policy -/

theorem eagerGrants_eq (hsize : runnable.length = contention.size) :
    eagerGrants contention runnable = (do
      let decided ← eagerDecide contention runnable
      (List.range contention.size).mapM fun index =>
        match decided.lookup index with
        | some grant => return grant
        | none => throw (.undrivenWire ("grant of candidate " ++ toString index))) := by
  have hfits : ¬ runnable.length ≠ contention.size := fun hne => hne hsize
  exact if_neg hfits

theorem grantOf_ensures (decided : List (Nat × NodeId)) (index : Nat) :
    (match decided.lookup index with
      | some grant => return grant
      | none => throw (.undrivenWire ("grant of candidate " ++ toString index)) :
        Build NodeId).Ensures fun _ grant => decided.lookup index = some grant := by
  split
  · rename_i grant hgrant
    exact Build.pure_ensures fun _ => hgrant
  · exact Build.throw_ensures _

theorem eager_serves : Serves eager where
  grows := by
    intro contention runnable
    show (eagerGrants contention runnable).Grows
    by_cases hsize : runnable.length = contention.size
    · rw [eagerGrants_eq hsize]
      refine Build.bind_grows (Build.foldlM_grows (fun decided current => ?_) _ _) fun decided => ?_
      · exact Build.bind_grows (eagerGrant_ensures decided current).grows fun _ => Build.pure_grows _
      · exact Build.mapM_grows (fun index => (grantOf_ensures decided index).grows) _
    · unfold eagerGrants
      simp only [ne_eq, hsize, not_false_eq_true, if_true]
      exact Build.throw_grows _
  length_eq := by
    intro contention runnable c grants c' hyields
    change (eagerGrants contention runnable).Yields c grants c' at hyields
    by_cases hsize : runnable.length = contention.size
    · rw [eagerGrants_eq hsize] at hyields
      obtain ⟨decided, c₁, -, hmap⟩ := Build.yields_bind_iff.mp hyields
      rw [← (Build.mapM_yields hmap).length_eq, List.length_range]
    · unfold eagerGrants at hyields
      simp only [ne_eq, hsize, not_false_eq_true, if_true] at hyields
      exact absurd hyields Build.not_yields_throw

/-- **The grants are those of greedy arbitration**, in whatever the circuit becomes. -/
theorem eagerGrants_ensures (h : Contention.WorkedOut reach contention) (runnable : List NodeId) :
    (eagerGrants contention runnable).Ensures fun s grants =>
      (∀ node ∈ runnable, s.IsBit node) →
        contention.Arbitrates (fun c => s.bit (runnable.getD c 0) = true)
          (fun c => s.bit (grants.getD c 0) = true) := by
  by_cases hsize : runnable.length = contention.size
  · rw [eagerGrants_eq hsize]
    refine Build.bind_ensures (eagerDecide_ensures h) fun decided => ?_
    refine (Build.mapM_ensures fun index _ => grantOf_ensures decided index).mono ?_
    intro s grants hgrants hdecide hbits
    have hdecided : Decided contention runnable contention.order s decided := by
      refine hdecide fun c hc => ?_
      rw [← hsize] at hc
      rw [List.getD_eq_getElem runnable 0 hc]
      exact hbits _ (List.getElem_mem hc)
    have hlength : grants.length = contention.size := by
      rw [← hgrants.length_eq, List.length_range]
    have hlookup : ∀ c < contention.size, decided.lookup c = some (grants.getD c 0) := by
      intro c hc
      have hget := hgrants.get (i := c) (by simpa using hc) (by simpa [hlength] using hc)
      rw [List.getD_eq_getElem grants 0 (by simpa [hlength] using hc)]
      simpa using hget
    refine h.arbitrates fun c hc => ?_
    rw [hdecided.granted c _ (hlookup c hc)]
    refine and_congr_right fun _ => ⟨fun hfree d hd hrun hbefore => ?_,
      fun hfree d n hn hrun hbefore => ?_⟩
    · exact hfree d _ (hlookup d hd) hrun hbefore
    · have hd : d < contention.size := h.mem_order.mp (hdecided.mem_done d n hn)
      rw [hlookup d hd] at hn
      cases hn
      exact hfree d hd hrun hbefore
  · unfold eagerGrants
    simp only [ne_eq, hsize, not_false_eq_true, if_true]
    exact Build.throw_ensures _

/-- The eager policy answers whenever it is given one bit for every candidate, and its grants rest
on what the bits rest on. -/
theorem eagerGrants_answers (h : Contention.WorkedOut reach contention) {J : Circuit → Prop}
    (hJ : Circuit.Lasts J) {c : Circuit} (hc : J c) {given : Set NodeId}
    (hsize : runnable.length = contention.size) (hbits : ∀ node ∈ runnable, c.Signal given 1 node) :
    (eagerGrants contention runnable).Answers c fun c' grants => J c' ∧
      grants.length = contention.size ∧ ∀ node ∈ grants, c'.Signal given 1 node := by
  have hrequests : ∀ current ∈ contention.order, c.Signal given 1 (runnable.getD current 0) := by
    intro current hcurrent
    have hlt : current < runnable.length := by
      rw [hsize]
      exact h.mem_order.mp hcurrent
    rw [List.getD_eq_getElem runnable 0 hlt]
    exact hbits _ (List.getElem_mem hlt)
  rw [eagerGrants_eq hsize]
  refine Build.bind_answers (eagerDecide_answers hJ hc hrequests) fun decided c₁ hle₁ h₁ => ?_
  obtain ⟨hc₁, hdecided, hall⟩ := h₁
  have hgrants := @Build.mapM_makes Nat c₁ J hc₁ given 1
    (fun index => match decided.lookup index with
      | some grant => return grant
      | none => throw (.undrivenWire ("grant of candidate " ++ toString index)))
    (List.range contention.size) fun index hindex c' hle hc' => by
      obtain ⟨node, hnode⟩ := hall index (h.mem_order.mpr (List.mem_range.mp hindex))
      rw [hnode]
      exact Build.pure_makes hc' ((hdecided index node hnode).mono hle)
  rwa [List.length_range] at hgrants

theorem eagerGrants_yields (h : Contention.WorkedOut reach contention) {c : Circuit}
    (hsize : runnable.length = contention.size) (hbits : ∀ node ∈ runnable, c.width node = .ok 1) :
    ∃ grants c', (eagerGrants contention runnable).Yields c grants c' ∧
      grants.length = contention.size := by
  have hsignals : ∀ node ∈ runnable, c.Signal Set.univ 1 node :=
    fun node hnode => ⟨hbits node hnode, .given trivial⟩
  obtain ⟨grants, c', hyields, -, -, hlength, -⟩ := eagerGrants_answers (J := fun _ => True) h
    ⟨fun _ _ _ => trivial, fun _ _ _ _ => trivial⟩ trivial hsize hsignals
  exact ⟨grants, c', hyields, hlength⟩

/-- **The eager policy is greedy arbitration.**  It is answered for every circuit and one bit for
every candidate, and whenever the circuit that it leaves, or one that this grows into, is
evaluated, the candidates with a high grant are those that greedy arbitration picks of the
candidates with a high request. -/
theorem eager_arbitrates (h : Contention.ofReach reach = .ok contention) (c : Circuit)
    (runnable : List NodeId) (hsize : runnable.length = contention.size)
    (hbits : ∀ node ∈ runnable, c.width node = .ok 1) :
    ∃ grants c', (eager.grants contention runnable).Yields c grants c' ∧
      grants.length = contention.size ∧
      ∀ evaluator : Evaluator, c' ≤ evaluator.circuit → ∀ stimulus valuation,
        evaluator.evaluate stimulus = .ok valuation →
          contention.Arbitrates (fun i => valuation.bit (runnable.getD i 0) = true)
            (fun i => valuation.bit (grants.getD i 0) = true) := by
  have hworked := Contention.ofReach_workedOut h
  have hensures := eagerGrants_ensures hworked runnable
  obtain ⟨grants, c', hyields, hlength⟩ := eagerGrants_yields hworked hsize hbits
  have hle : c ≤ c' := hensures.grows.le_of_yields hyields
  refine ⟨grants, c', hyields, hlength, fun evaluator hgrown stimulus valuation heval => ?_⟩
  refine hensures.holds hyields (Evaluator.settled c heval) c.le_refl hgrown fun node hnode => ?_
  exact Circuit.width_of_le (Circuit.le_trans hle hgrown) (hbits node hnode)

/-- Two transactions without calls, of which a conflict was declared. -/
def rivalPlan : Plan where
  blocks := .empty
  roster := ⟨#[⟨"first", "first", none, 0, 0, .transaction⟩,
    ⟨"second", "second", none, 1, 1, .transaction⟩]⟩
  calls := .empty
  couplings := { Couplings.empty with relations := [.conflict 0 1 .undefined] }

/-- A request of each of the two. -/
def rivalRequests : Circuit := ⟨#[⟨1, .input "first"⟩, ⟨1, .input "second"⟩]⟩

/-- Both ask to be granted.  They conflict, so only the first is. -/
theorem rivals_arbitrated :
    ∃ contention grants c', Contention.ofReach ⟨rivalPlan, #[[], []]⟩ = .ok contention ∧
      contention.inConflict 0 1 = true ∧
      (eager.grants contention [0, 1]).Yields rivalRequests grants c' ∧
      ∃ evaluator valuation, Evaluator.ofCircuit c' = .ok evaluator ∧
        evaluator.evaluate ⟨[(0, 1), (1, 1)]⟩ = .ok valuation ∧
        [0, 1].map valuation.bit = [true, true] ∧ grants.map valuation.bit = [true, false] ∧
        contention.Arbitrates (fun i => valuation.bit ([0, 1].getD i 0) = true)
          (fun i => valuation.bit (grants.getD i 0) = true) := by
  have hrun : (match Contention.ofReach ⟨rivalPlan, #[[], []]⟩ with
      | .error _ => false
      | .ok contention => contention.size == 2 && (contention.inConflict 0 1 &&
        match (eager.grants contention [0, 1]).run.run rivalRequests with
        | (.error _, _) => false
        | (.ok grants, c') =>
          match Evaluator.ofCircuit c' with
          | .error _ => false
          | .ok evaluator =>
            match evaluator.evaluate ⟨[(0, 1), (1, 1)]⟩ with
            | .error _ => false
            | .ok valuation => [0, 1].map valuation.bit == [true, true] &&
              grants.map valuation.bit == [true, false])) = true := by
    decide +kernel
  cases hreach : Contention.ofReach ⟨rivalPlan, #[[], []]⟩ with
  | error fault => rw [hreach] at hrun; cases hrun
  | ok contention =>
      rw [hreach] at hrun
      obtain ⟨hsize, hrun⟩ := Bool.and_eq_true_iff.mp hrun
      obtain ⟨hconflict, hrun⟩ := Bool.and_eq_true_iff.mp hrun
      obtain ⟨grants, c', hyields, -, harbitrates⟩ := eager_arbitrates hreach rivalRequests [0, 1]
        (beq_iff_eq.mp hsize).symm (by decide)
      rw [hyields] at hrun
      dsimp only at hrun
      cases hevaluator : Evaluator.ofCircuit c' with
      | error fault => rw [hevaluator] at hrun; cases hrun
      | ok evaluator =>
          rw [hevaluator] at hrun
          dsimp only at hrun
          cases heval : evaluator.evaluate ⟨[(0, 1), (1, 1)]⟩ with
          | error fault => rw [heval] at hrun; cases hrun
          | ok valuation =>
              rw [heval] at hrun
              obtain ⟨hrequests, hgrants⟩ := Bool.and_eq_true_iff.mp hrun
              refine ⟨contention, grants, c', rfl, hconflict, hyields, evaluator, valuation,
                hevaluator, heval, eq_of_beq hrequests, eq_of_beq hgrants,
                harbitrates evaluator ?_ _ valuation heval⟩
              rw [Evaluator.circuit_of_ofCircuit hevaluator]
              exact c'.le_refl

end Interlock.Policy
