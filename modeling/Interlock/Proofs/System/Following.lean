/-
The wiring of a plan is followed.

What a plan says of the logic are nodes that were there when the plan was made.  In a circuit that
holds a copy of the logic, with these nodes at their own places, the same wiring can be made of the
same plan; its nodes are the copies of those that the wiring is made of in the other circuit.
-/
import Interlock.Proofs.Anchored
import Interlock.Proofs.Circuit.Beside
import Interlock.Proofs.System.Wiring
import Interlock.Proofs.Uniform

namespace Interlock

/-! ### Plans among the first nodes -/

/-- The plan speaks of the first so many nodes, and what its actions bring along does not tell
their copies from them. -/
structure Plan.Within (n : Nat) (plan : Plan) : Prop where
  actions : ∀ (id : ActionId) (action : Action), plan.roster.actions[id]? = some action →
    action.Within n
  sites : ∀ (id : CallId) (site : CallSite), plan.calls.sites[id]? = some site → site.Within n
  uniform : ∀ (id : ActionId) (action : Action), plan.roster.actions[id]? = some action →
    action.Uniform n

namespace Copy

variable {k k' : Copy} {n bound : Nat}

theorem Fixes.carries (h : k.Fixes n) {b : Bundle} (hb : ∀ node ∈ b.nodes, node < n) :
    k.Carries b b :=
  List.forall₂_same.mpr fun entry hentry =>
    ⟨rfl, h.places (hb entry.2 (List.mem_map.mpr ⟨entry, hentry, rfl⟩))⟩

/-- The lists give nodes to the same numbers below the bound, the second list the copies. -/
def Keyed (k : Copy) (bound : Nat) (l l' : List (Nat × NodeId)) : Prop :=
  List.Forall₂ (fun entry entry' => entry.1 < bound ∧ entry.1 = entry'.1 ∧
    k.Places entry.2 entry'.2) l l'

theorem LeadsTo.keyed {new : List NodeId} (h : k.LeadsTo new k') {l l' : List (Nat × NodeId)}
    (hl : k.Keyed bound l l') : k'.Keyed bound l l' :=
  List.Forall₂.imp (fun _ _ hentry => ⟨hentry.1, hentry.2.1, h.places hentry.2.2⟩) hl

theorem Keyed.mono {l l' : List (Nat × NodeId)} (h : k.Keyed bound l l') (hle : k ≤ k') :
    k'.Keyed bound l l' := (GrowsTo.leadsTo hle).keyed h

theorem Keyed.lookup {l l' : List (Nat × NodeId)} (h : k.Keyed bound l l') (a : Nat) :
    Option.Rel k.Places (l.lookup a) (l'.lookup a) := by
  unfold Keyed at h
  induction h with
  | nil => exact .none
  | @cons entry entry' _ _ hentry _ ih =>
      obtain ⟨key, node⟩ := entry
      obtain ⟨key', node'⟩ := entry'
      obtain ⟨-, rfl, hplaces⟩ := hentry
      rw [List.lookup_cons, List.lookup_cons]
      by_cases ha : (a == key) = true
      · rw [ha]
        exact .some hplaces
      · rw [Bool.eq_false_iff.mpr ha]
        exact ih

theorem Keyed.keys {l l' : List (Nat × NodeId)} (h : k.Keyed bound l l') :
    ∀ entry ∈ l', entry.1 < bound := by
  unfold Keyed at h
  induction h with
  | nil => simp
  | cons hentry _ ih =>
      refine List.forall_mem_cons.mpr ⟨?_, ih⟩
      rw [← hentry.2.1]
      exact hentry.1

theorem getD_places {o o' : Option NodeId} (h : Option.Rel k.Places o o') (hzero : k.Places 0 0) :
    k.Places (o.getD 0) (o'.getD 0) := by
  cases h with
  | none => exact hzero
  | some hplaces => exact hplaces

theorem getElem?_places {l l' : List NodeId} (h : List.Forall₂ k.Places l l') (i : Nat) :
    Option.Rel k.Places l[i]? l'[i]? := by
  induction h generalizing i with
  | nil => exact .none
  | cons hplaces _ ih =>
      cases i with
      | zero => simpa using Option.Rel.some hplaces
      | succ i => simpa using ih i

theorem getD_getElem?_places {l l' : List NodeId} (h : List.Forall₂ k.Places l l')
    (hzero : k.Places 0 0) (i : Nat) : k.Places (l.getD i 0) (l'.getD i 0) := by
  rw [List.getD_eq_getElem?_getD, List.getD_eq_getElem?_getD]
  exact getD_places (getElem?_places h i) hzero

theorem flatMap_places {α : Type} {f g : α → List NodeId} {l : List α}
    (h : ∀ a ∈ l, List.Forall₂ k.Places (f a) (g a)) :
    List.Forall₂ k.Places (l.flatMap f) (l.flatMap g) := by
  induction l with
  | nil => exact .nil
  | cons a rest ih =>
      obtain ⟨ha, hrest⟩ := List.forall_mem_cons.mp h
      rw [List.flatMap_cons, List.flatMap_cons]
      exact List.rel_append ha (ih hrest)

theorem filterMap_places {α : Type} {f g : α → Option NodeId}
    (h : ∀ a, Option.Rel k.Places (f a) (g a)) (l : List α) :
    List.Forall₂ k.Places (l.filterMap f) (l.filterMap g) := by
  refine List.rel_filterMap (R := Eq) ?_ (List.forall₂_same.mpr fun _ _ => rfl)
  rintro a _ rfl
  exact h a

end Copy

namespace Wiring

open Build

variable {k : Copy} {n : Nat} {plan : Plan}

/-! ### Grounding -/

theorem ground_follows {wire wire' : NodeId} (h : k.Places wire wire') :
    Follows k (ground wire) (ground wire') fun _ _ _ => True := by
  refine bind_follows get_follows fun k₁ c c' _ hget => ?_
  obtain ⟨rfl, rfl, rfl⟩ := hget
  refine bind_follows (isDriven_follows h) fun k₂ driven driven' hle₂ hdriven => ?_
  subst hdriven
  split
  · exact pure_follows trivial
  · refine bind_follows (width_follows (h.mono hle₂)) fun k₃ w w' hle₃ hw => ?_
    subst hw
    refine bind_follows (constant_follows 0 w') fun k₄ low low' hle₄ hlow => ?_
    exact drive_follows (h.mono (Copy.le_trans hle₂ (Copy.le_trans hle₃ hle₄))) hlow

theorem groundOutputs_follows (hfixes : k.Fixes n) (hplan : plan.Within n) :
    Follows k (groundOutputs plan) (groundOutputs plan) fun _ _ _ => True := by
  refine forEach_follows (List.forall₂_same.mpr fun entry hentry k₁ hle₁ => ?_)
  have hmethod := hplan.actions _ _ (Roster.mem_methods.mp hentry).1
  refine forEach_follows (List.forall₂_same.mpr fun wire hwire k₂ hle₂ => ?_)
  have hfixes₂ := (hfixes.mono hle₁).mono hle₂
  exact ground_follows (hfixes₂.places (hmethod.dataOut wire hwire))

/-! ### Acceptance -/

theorem verdict_follows {validator : Validator} (huniform : validator.Uniform n)
    (hfixes : k.Fixes n) {a b : Bundle} (h : k.Carries a b) :
    Follows k (verdict validator a) (verdict validator b) Copy.Places := by
  refine bind_follows (huniform k a b hfixes h) fun k₁ valid valid' _ hvalid => ?_
  refine bind_follows (width_follows hvalid) fun k₂ w w' hle hw => ?_
  subst hw
  refine bind_follows (matchWidths_follows _ 1 w') fun k₃ _ _ hle' _ => ?_
  exact pure_follows (hvalid.mono (Copy.le_trans hle hle'))

theorem terms_follows {callee : Action} (hcallee : callee.Within n) (huniform : callee.Uniform n)
    (hfixes : k.Fixes n) {arguments : Bundle} (harguments : ∀ node ∈ arguments.nodes, node < n) :
    Follows k (terms callee arguments) (terms callee arguments) fun k' =>
      List.Forall₂ k'.Places := by
  have hready := hfixes.places hcallee.ready
  unfold terms
  split
  · exact pure_follows (.cons hready .nil)
  · rename_i validator hvalidator
    refine bind_follows (verdict_follows (huniform.validator validator hvalidator) hfixes
      (hfixes.carries harguments)) fun k₁ valid valid' hle hvalid => ?_
    exact pure_follows (.cons (hready.mono hle) (.cons hvalid .nil))

/-- An answer about acceptance is a copy, and so is what is remembered. -/
def AcceptedAs (actions : Nat) (k : Copy) (answer answer' : NodeId × Accepted) : Prop :=
  k.Places answer.1 answer'.1 ∧ k.Keyed actions answer.2 answer'.2

/-- So it is with the answers about some of the calls of an action. -/
def SitesAs (actions : Nat) (k : Copy) (state state' : List NodeId × Accepted) : Prop :=
  List.Forall₂ k.Places state.1 state'.1 ∧ k.Keyed actions state.2 state'.2

theorem acceptSite_follows (hplan : plan.Within n) {site : CallSite} (hsite : site.Within n)
    {callee : Action} (hcallee : plan.roster.actions[site.callee]? = some callee)
    {below : Accepted → ActionId → Build (NodeId × Accepted)}
    (hbelow : ∀ k : Copy, k.Fixes n → ∀ {accepted accepted' : Accepted},
      k.Keyed plan.roster.size accepted accepted' →
        Follows k (below accepted site.callee) (below accepted' site.callee)
          (AcceptedAs plan.roster.size))
    (hfixes : k.Fixes n) {accepted accepted' : Accepted}
    (haccepted : k.Keyed plan.roster.size accepted accepted') :
    Follows k (acceptSite plan below accepted site) (acceptSite plan below accepted' site)
      (AcceptedAs plan.roster.size) := by
  unfold acceptSite
  rw [hcallee]
  refine bind_follows (terms_follows (hplan.actions _ _ hcallee) (hplan.uniform _ _ hcallee) hfixes
    hsite.arguments) fun k₁ own own' hle₁ hown => ?_
  refine bind_follows (hbelow k₁ (hfixes.mono hle₁) (haccepted.mono hle₁))
    fun k₂ answer answer' hle₂ hanswer => ?_
  obtain ⟨calls, accepted⟩ := answer
  obtain ⟨calls', accepted'⟩ := answer'
  obtain ⟨hcalls, hkeyed⟩ := hanswer
  have hterms : List.Forall₂ k₂.Places (own ++ [calls]) (own' ++ [calls']) :=
    List.rel_append (hle₂.leadsTo.forall₂_places hown) (.cons hcalls .nil)
  refine bind_follows (andAll_follows hterms) fun k₃ all all' hle₃ hall => ?_
  have henable : k₃.Places site.enable site.enable :=
    (((hfixes.mono hle₁).mono hle₂).mono hle₃).places hsite.enable
  refine bind_follows (implies_follows henable hall) fun k₄ node node' hle₄ hnode => ?_
  exact pure_follows ⟨hnode, hkeyed.mono (Copy.le_trans hle₃ hle₄)⟩

/-- Whatever is remembered of actions, what is worked out for one more is followed. -/
theorem accept_follows (hplan : plan.Within n) (hcalls : plan.calls.Between plan.roster.size)
    (depth : Nat) : ∀ (k : Copy), k.Fixes n → ∀ {accepted accepted' : Accepted} {a : ActionId},
      a < plan.roster.size → k.Keyed plan.roster.size accepted accepted' →
        Follows k (accept plan depth accepted a) (accept plan depth accepted' a)
          (AcceptedAs plan.roster.size) := by
  induction depth with
  | zero =>
      intro k _ accepted accepted' a _ haccepted
      exact bind_follows low_follows fun k₁ _ _ hle₁ hlow => pure_follows ⟨hlow, haccepted.mono hle₁⟩
  | succ depth ih =>
      intro k hfixes accepted accepted' a ha haccepted
      have hlookup := haccepted.lookup a
      unfold accept
      revert hlookup
      generalize accepted.lookup a = found
      generalize accepted'.lookup a = found'
      intro hlookup
      cases hlookup with
      | some hnode => exact pure_follows ⟨hnode, haccepted⟩
      | none =>
          refine bind_follows (foldlM_follows (R := SitesAs plan.roster.size)
            (List.forall₂_same.mpr fun entry hentry k₁ hle₁ s t hst => ?_) ⟨.nil, haccepted⟩)
            fun k₂ sites sites' _ hsites => ?_
          · obtain ⟨hsite, -⟩ := Calls.mem_byCaller.mp hentry
            obtain ⟨-, hlt⟩ := hcalls _ _ hsite
            obtain ⟨callee, hcallee⟩ : ∃ callee, plan.roster.actions[entry.2.callee]? = some callee :=
              ⟨_, Array.getElem?_eq_getElem hlt⟩
            refine bind_follows (acceptSite_follows hplan (hplan.sites _ _ hsite) hcallee
              (fun k hk _ _ hkeyed => ih k hk hlt hkeyed) (hfixes.mono hle₁) hst.2)
              fun k₂ answer answer' hle₂ hanswer => ?_
            refine pure_follows ⟨List.rel_append ?_ (.cons hanswer.1 .nil), hanswer.2⟩
            exact hle₂.leadsTo.forall₂_places hst.1
          · refine bind_follows (andAll_follows hsites.1) fun k₃ node node' hle₃ hnode => ?_
            exact pure_follows ⟨hnode, .cons ⟨ha, rfl, hnode⟩ (hsites.2.mono hle₃)⟩

/-- **What the actions accept is followed.** -/
theorem acceptAll_follows (hplan : plan.Within n) (hcalls : plan.calls.Between plan.roster.size)
    (hfixes : k.Fixes n) : Follows k (acceptAll plan) (acceptAll plan) fun k' =>
      k'.Keyed plan.roster.size := by
  refine foldlM_follows (R := fun k' => k'.Keyed plan.roster.size)
    (List.forall₂_same.mpr fun a ha k₁ hle₁ s t hst => ?_) .nil
  refine bind_follows (accept_follows hplan hcalls _ k₁ (hfixes.mono hle₁) (List.mem_range.mp ha) hst)
    fun k₂ _ _ _ hanswer => pure_follows hanswer.2

/-! ### Grants -/

theorem candidateRunnable_follows (hplan : plan.Within n) (hfixes : k.Fixes n)
    (hzero : k.Places 0 0) {accepted accepted' : Accepted}
    (haccepted : k.Keyed plan.roster.size accepted accepted') {candidate : Candidate}
    (hmembers : ∀ t ∈ candidate.members, t < plan.roster.size) :
    Follows k (candidateRunnable plan accepted candidate) (candidateRunnable plan accepted' candidate)
      Copy.Places := by
  refine andAll_follows (Copy.flatMap_places fun t ht => ?_)
  obtain ⟨action, haction⟩ : ∃ action, plan.roster.actions[t]? = some action :=
    ⟨_, Array.getElem?_eq_getElem (hmembers t ht)⟩
  rw [readyOf_eq haction]
  refine .cons (hfixes.places (hplan.actions _ _ haction).ready) (.cons ?_ .nil)
  exact Copy.getD_places (haccepted.lookup t) hzero

theorem runnable_follows (hplan : plan.Within n) (hfixes : k.Fixes n) (hzero : k.Places 0 0)
    {accepted accepted' : Accepted} (haccepted : k.Keyed plan.roster.size accepted accepted')
    {candidates : List Candidate}
    (hmembers : ∀ candidate ∈ candidates, ∀ t ∈ candidate.members, t < plan.roster.size) :
    Follows k (candidates.mapM (candidateRunnable plan accepted))
      (candidates.mapM (candidateRunnable plan accepted')) fun k' => List.Forall₂ k'.Places :=
  mapM_follows (R := Copy.Places) (fun hle h => h.mono hle)
    (List.forall₂_same.mpr fun candidate hcandidate _ hle₁ =>
      candidateRunnable_follows hplan (hfixes.mono hle₁) (hzero.mono hle₁) (haccepted.mono hle₁)
        (hmembers candidate hcandidate))

end Wiring

namespace Policy

open Build

variable {k : Copy} {contention : Contention}

theorem eagerGrant_follows (hzero : k.Places 0 0) {runnable runnable' : List NodeId}
    (hrunnable : List.Forall₂ k.Places runnable runnable') {bound : Nat}
    {decided decided' : List (Nat × NodeId)} (hdecided : k.Keyed bound decided decided')
    (current : Nat) : Follows k (eagerGrant contention runnable decided current)
      (eagerGrant contention runnable' decided' current) Copy.Places := by
  have hrequest := Copy.getD_getElem?_places hrunnable hzero current
  have hblockers := Copy.filterMap_places hdecided.lookup (contention.rivals current)
  unfold eagerGrant
  revert hblockers
  generalize (contention.rivals current).filterMap (fun rival => decided.lookup rival) = blockers
  generalize (contention.rivals current).filterMap (fun rival => decided'.lookup rival) = blockers'
  intro hblockers
  cases hblockers with
  | nil => exact pure_follows hrequest
  | cons hfirst hrest =>
      refine bind_follows (orAll_follows (.cons hfirst hrest)) fun k₁ _ _ hle₁ hblocked => ?_
      refine bind_follows (unary_follows .not hblocked) fun k₂ _ _ hle₂ hnot => ?_
      exact binary_follows .and (hrequest.mono (Copy.le_trans hle₁ hle₂)) hnot

theorem eagerDecide_follows (hzero : k.Places 0 0) {runnable runnable' : List NodeId}
    (hrunnable : List.Forall₂ k.Places runnable runnable')
    (horder : ∀ c ∈ contention.order, c < contention.size) :
    Follows k (eagerDecide contention runnable) (eagerDecide contention runnable') fun k' =>
      k'.Keyed contention.size := by
  refine foldlM_follows (R := fun k' => k'.Keyed contention.size)
    (List.forall₂_same.mpr fun current hcurrent k₁ hle₁ s t hst => ?_) .nil
  have hrunnable₁ := hle₁.leadsTo.forall₂_places hrunnable
  refine bind_follows (eagerGrant_follows (hzero.mono hle₁) hrunnable₁ hst current)
    fun k₂ _ _ hle₂ hgrant => pure_follows ?_
  exact .cons ⟨horder current hcurrent, rfl, hgrant⟩ (hst.mono hle₂)

/-- **What the eager policy grants is followed.** -/
theorem eagerGrants_follows (hzero : k.Places 0 0) {runnable runnable' : List NodeId}
    (hrunnable : List.Forall₂ k.Places runnable runnable')
    (horder : ∀ c ∈ contention.order, c < contention.size) :
    Follows k (eagerGrants contention runnable) (eagerGrants contention runnable') fun k' =>
      List.Forall₂ k'.Places := by
  unfold eagerGrants
  rw [← hrunnable.length_eq]
  split
  · exact bind_follows (throw_follows (P := fun _ _ _ => False) _ _) fun _ _ _ _ h => h.elim
  · refine bind_follows (eagerDecide_follows hzero hrunnable horder)
      fun k₁ decided decided' _ hdecided => ?_
    refine mapM_follows (R := Copy.Places) (fun hle h => h.mono hle)
      (List.forall₂_same.mpr fun index _ k₂ hle₂ => ?_)
    have hlookup := (hdecided.mono hle₂).lookup index
    revert hlookup
    generalize decided.lookup index = found
    generalize decided'.lookup index = found'
    intro hlookup
    cases hlookup with
    | none => exact throw_follows _ _
    | some hgrant => exact pure_follows hgrant

end Policy

/-! ### Run bits -/

namespace Wiring

open Build

variable {k : Copy} {n : Nat} {plan : Plan}

theorem runTransactions_follows (hplan : plan.Within n) (hfixes : k.Fixes n) (hzero : k.Places 0 0)
    {contention : Contention} {grants grants' : List NodeId}
    (hgrants : List.Forall₂ k.Places grants grants') :
    Follows k
      (plan.roster.transactions.forM fun entry =>
        runTransaction contention grants entry.1 entry.2)
      (plan.roster.transactions.forM fun entry =>
        runTransaction contention grants' entry.1 entry.2) fun _ _ _ => True := by
  refine forEach_follows (List.forall₂_same.mpr fun entry hentry k₁ hle₁ => ?_)
  have hrun := (hplan.actions _ _ (Roster.mem_transactions.mp hentry).1).run
  have hgrants₁ := hle₁.leadsTo.forall₂_places hgrants
  have hgranted : List.Forall₂ k₁.Places ((contention.holdersOf entry.1).map (grants.getD · 0))
      ((contention.holdersOf entry.1).map (grants'.getD · 0)) := by
    rw [List.forall₂_map_left_iff, List.forall₂_map_right_iff]
    exact List.forall₂_same.mpr fun c _ => Copy.getD_getElem?_places hgrants₁ (hzero.mono hle₁) c
  refine bind_follows (orAll_follows hgranted) fun k₂ _ _ hle₂ hgranted => ?_
  exact drive_follows (((hfixes.mono hle₁).mono hle₂).places hrun) hgranted

theorem runCalls_follows (hplan : plan.Within n) (hcalls : plan.calls.Between plan.roster.size)
    (hfixes : k.Fixes n) : Follows k (plan.calls.sites.toList.mapM (runCall plan))
      (plan.calls.sites.toList.mapM (runCall plan)) fun k' => List.Forall₂ k'.Places := by
  refine mapM_follows (R := Copy.Places) (fun hle h => h.mono hle)
    (List.forall₂_same.mpr fun site hsite k₁ hle₁ => ?_)
  obtain ⟨id, hid⟩ := List.mem_iff_getElem?.mp hsite
  rw [Array.getElem?_toList] at hid
  obtain ⟨action, haction⟩ : ∃ action, plan.roster.actions[site.caller]? = some action :=
    ⟨_, Array.getElem?_eq_getElem (hcalls id site hid).1⟩
  unfold runCall
  rw [runOf_eq haction]
  exact binary_follows .and ((hfixes.mono hle₁).places (hplan.actions _ _ haction).run)
    ((hfixes.mono hle₁).places (hplan.sites id site hid).enable)

theorem methodInput_follows {method : Action} (huniform : method.Uniform n) (hfixes : k.Fixes n)
    {arguments arguments' : List Bundle} (harguments : List.Forall₂ k.Carries arguments arguments')
    {runs runs' : List NodeId} (hruns : List.Forall₂ k.Places runs runs') :
    Follows k (methodInput method arguments runs) (methodInput method arguments' runs')
      Copy.Carries := by
  have hall := harguments
  unfold methodInput
  cases harguments with
  | nil => exact zeros_follows _
  | cons hfirst hrest =>
      cases hcombiner : method.combiner? with
      | some combiner =>
          refine bind_follows (huniform.combiner combiner hcombiner k _ _ runs runs' hfixes hall hruns)
            fun k₁ value value' _ hvalue => ?_
          refine bind_follows (expectFields_follows hvalue _) fun k₂ _ _ hle₂ _ => ?_
          exact pure_follows (hvalue.mono hle₂)
      | none =>
          cases hrest with
          | nil => exact pure_follows hfirst
          | cons => exact select_follows _ hruns hall

theorem runMethods_follows (hplan : plan.Within n) (hfixes : k.Fixes n) (hzero : k.Places 0 0)
    {callRuns callRuns' : List NodeId} (hcallRuns : List.Forall₂ k.Places callRuns callRuns') :
    Follows k
      (plan.roster.methods.forM fun entry => runMethod plan callRuns entry.1 entry.2)
      (plan.roster.methods.forM fun entry => runMethod plan callRuns' entry.1 entry.2)
      fun _ _ _ => True := by
  refine forEach_follows (List.forall₂_same.mpr fun entry hentry k₁ hle₁ => ?_)
  obtain ⟨haction, -⟩ := Roster.mem_methods.mp hentry
  have hmethod := hplan.actions _ _ haction
  have hfixes₁ := hfixes.mono hle₁
  have hcallRuns₁ := hle₁.leadsTo.forall₂_places hcallRuns
  have hruns : List.Forall₂ k₁.Places
      ((plan.calls.byCallee entry.1).map fun site => callRuns.getD site.1 0)
      ((plan.calls.byCallee entry.1).map fun site => callRuns'.getD site.1 0) := by
    rw [List.forall₂_map_left_iff, List.forall₂_map_right_iff]
    exact List.forall₂_same.mpr fun site _ =>
      Copy.getD_getElem?_places hcallRuns₁ (hzero.mono hle₁) site.1
  refine bind_follows (orAll_follows hruns) fun k₂ _ _ hle₂ hrun => ?_
  refine bind_follows (drive_follows ((hfixes₁.mono hle₂).places hmethod.run) hrun)
    fun k₃ _ _ hle₃ _ => ?_
  have hle := Copy.le_trans hle₂ hle₃
  have hruns₃ := hle.leadsTo.forall₂_places hruns
  have harguments : List.Forall₂ k₃.Carries ((plan.calls.byCallee entry.1).map (·.2.arguments))
      ((plan.calls.byCallee entry.1).map (·.2.arguments)) := by
    refine List.forall₂_same.mpr fun arguments hmem => ?_
    obtain ⟨site, hsite, rfl⟩ := List.mem_map.mp hmem
    obtain ⟨hsite, -⟩ := Calls.mem_byCallee.mp hsite
    exact (hfixes₁.mono hle).carries (hplan.sites _ _ hsite).arguments
  refine bind_follows (methodInput_follows (hplan.uniform _ _ haction) (hfixes₁.mono hle) harguments
    hruns₃) fun k₄ value value' hle₄ hvalue => ?_
  exact driveAll_follows (((hfixes₁.mono hle).mono hle₄).carries hmethod.dataIn) hvalue

end Wiring
end Interlock
