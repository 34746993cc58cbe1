/-
The wiring of a plan that one more transaction has joined.

Nobody calls the newcomer and the newcomer calls nobody, so the calls that it makes are all accepted,
which takes one constant; it could run if it asks to, and it has no rivals, so it is granted if it
could run, and runs if it is granted.  All that is added to the wiring of the plan it joined is this
constant, one gate and the driver of its run wire.  The other requests are those of the old plan,
made in the old order.
-/
import Interlock.Proofs.Contention.Newcomer
import Interlock.Proofs.System.Following

namespace Interlock

/-! ### Requests made one after the other -/

namespace Build

variable {α β : Type} {l : List α}

theorem foldlM_congr {f g : β → α → Build β} (h : ∀ a ∈ l, ∀ b, f b a = g b a) :
    ∀ b, l.foldlM f b = l.foldlM g b := by
  induction l with
  | nil => exact fun b => rfl
  | cons a rest ih =>
      intro b
      obtain ⟨ha, hrest⟩ := List.forall_mem_cons.mp h
      rw [List.foldlM_cons, List.foldlM_cons, ha b, funext (ih hrest)]

theorem mapM_congr {f g : α → Build β} (h : ∀ a ∈ l, f a = g a) : l.mapM f = l.mapM g := by
  induction l with
  | nil => rfl
  | cons a rest ih =>
      obtain ⟨ha, hrest⟩ := List.forall_mem_cons.mp h
      rw [List.mapM_cons, List.mapM_cons, ha, ih hrest]

theorem forM_congr {f g : α → Build Unit} (h : ∀ a ∈ l, f a = g a) : l.forM f = l.forM g := by
  induction l with
  | nil => rfl
  | cons a rest ih =>
      obtain ⟨ha, hrest⟩ := List.forall_mem_cons.mp h
      show (f a >>= fun _ => rest.forM f) = (g a >>= fun _ => rest.forM g)
      rw [ha, ih hrest]

/-- One more answer is answered last. -/
theorem mapM_concat_yields {f : α → Build β} {a : α} {bs : List β} {b : β} {c c₂ : Circuit}
    (c₁ : Circuit) (h : (l.mapM f).Yields c bs c₁) (ha : (f a).Yields c₁ b c₂) :
    ((l ++ [a]).mapM f).Yields c (bs ++ [b]) c₂ := by
  rw [List.mapM_append]
  refine yields_bind_iff.mpr ⟨bs, c₁, h, yields_bind_iff.mpr ⟨[b], c₂, ?_, rfl⟩⟩
  rw [List.mapM_cons]
  exact yields_bind_iff.mpr ⟨b, c₂, ha, rfl⟩

/-- One more request is made last. -/
theorem forM_concat_yields {f : α → Build Unit} {a : α} {c c₂ : Circuit} (c₁ : Circuit)
    (h : (l.forM f).Yields c () c₁) (ha : (f a).Yields c₁ () c₂) :
    ((l ++ [a]).forM f).Yields c () c₂ := by
  have happend : (l ++ [a]).forM f = (l.forM f >>= fun _ => [a].forM f) := List.forM_append
  rw [happend]
  exact yields_bind_iff.mpr ⟨(), c₁, h, yields_bind_iff.mpr ⟨(), c₂, ha, rfl⟩⟩

end Build

namespace Wiring

variable {plan : Plan} {newcomer : Action}

theorem groundOutputs_joinedBy (hrole : newcomer.isTransaction = true) :
    groundOutputs (plan.joinedBy newcomer) = groundOutputs plan := by
  unfold groundOutputs
  rw [Plan.methods_joinedBy hrole]

/-- A wiring is made in six steps. -/
theorem connect_yields_iff {contention : Contention} {policy : Policy} {wiring : Wiring}
    {c c' : Circuit} : (connect plan contention policy).Yields c wiring c' ↔
      ∃ accepted c₁ c₂ c₃ c₄ c₅, (acceptAll plan).Yields c accepted c₁ ∧
        (contention.candidates.mapM (candidateRunnable plan accepted)).Yields c₁ wiring.runnable c₂ ∧
        (policy.grants contention wiring.runnable).Yields c₂ wiring.grants c₃ ∧
        (plan.roster.transactions.forM fun entry =>
          runTransaction contention wiring.grants entry.1 entry.2).Yields c₃ () c₄ ∧
        (plan.calls.sites.toList.mapM (runCall plan)).Yields c₄ wiring.callRuns c₅ ∧
        (plan.roster.methods.forM fun entry =>
          runMethod plan wiring.callRuns entry.1 entry.2).Yields c₅ () c' := by
  constructor
  · intro h
    obtain ⟨accepted, c₁, haccepted, h⟩ := Build.yields_bind_iff.mp h
    obtain ⟨runnable, c₂, hrunnable, h⟩ := Build.yields_bind_iff.mp h
    obtain ⟨grants, c₃, hgrants, h⟩ := Build.yields_bind_iff.mp h
    obtain ⟨_, c₄, htransactions, h⟩ := Build.yields_bind_iff.mp h
    obtain ⟨callRuns, c₅, hcallRuns, h⟩ := Build.yields_bind_iff.mp h
    obtain ⟨_, c₆, hmethods, hpure⟩ := Build.yields_bind_iff.mp h
    obtain ⟨rfl, rfl⟩ := Build.yields_pure_iff.mp hpure
    exact ⟨accepted, c₁, c₂, c₃, c₄, c₅, haccepted, hrunnable, hgrants, htransactions, hcallRuns,
      hmethods⟩
  · rintro ⟨accepted, c₁, c₂, c₃, c₄, c₅, haccepted, hrunnable, hgrants, htransactions, hcallRuns,
      hmethods⟩
    refine Build.yields_bind_iff.mpr ⟨accepted, c₁, haccepted, ?_⟩
    refine Build.yields_bind_iff.mpr ⟨wiring.runnable, c₂, hrunnable, ?_⟩
    refine Build.yields_bind_iff.mpr ⟨wiring.grants, c₃, hgrants, ?_⟩
    refine Build.yields_bind_iff.mpr ⟨(), c₄, htransactions, ?_⟩
    refine Build.yields_bind_iff.mpr ⟨wiring.callRuns, c₅, hcallRuns, ?_⟩
    exact Build.yields_bind_iff.mpr ⟨(), c', hmethods, rfl⟩

/-! ### Acceptance -/

theorem acceptSite_joinedBy {below below' : Accepted → ActionId → Build (NodeId × Accepted)}
    {site : CallSite} (hcallee : site.callee < plan.roster.size)
    (hbelow : ∀ accepted, below' accepted site.callee = below accepted site.callee)
    (accepted : Accepted) :
    acceptSite (plan.joinedBy newcomer) below' accepted site =
      acceptSite plan below accepted site := by
  unfold acceptSite
  rw [Plan.actions_joinedBy hcallee]
  simp only [hbelow]

/-- What is worked out for an action is the same if it is for whatever it calls. -/
theorem accept_succ_joinedBy (hcalls : plan.calls.Between plan.roster.size) {depth depth' : Nat}
    {a : ActionId} (hbelow : ∀ entry ∈ plan.calls.byCaller a, ∀ accepted,
      accept (plan.joinedBy newcomer) depth' accepted entry.2.callee =
        accept plan depth accepted entry.2.callee) (accepted : Accepted) :
    accept (plan.joinedBy newcomer) (depth' + 1) accepted a = accept plan (depth + 1) accepted a := by
  unfold accept
  cases accepted.lookup a with
  | some node => rfl
  | none =>
      dsimp only
      congr 1
      refine Build.foldlM_congr (fun entry hentry state => ?_) _
      obtain ⟨hsite, -⟩ := Calls.mem_byCaller.mp hentry
      rw [acceptSite_joinedBy (hcalls _ _ hsite).2 (hbelow entry hentry)]

/-- The calls of an action are accepted as they were; more depth than the longest chain of calls
makes no difference. -/
theorem accept_joinedBy (hcalls : plan.calls.Between plan.roster.size) (n : Nat) :
    ∀ {depth depth' : Nat} {a : ActionId},
      (∀ ids m, plan.calls.Leads a ids m → ids.length ≤ n) → n ≤ depth → n ≤ depth' →
        ∀ accepted, accept (plan.joinedBy newcomer) (depth' + 1) accepted a =
          accept plan (depth + 1) accepted a := by
  induction n with
  | zero =>
      intro depth depth' a hchains _ _
      have hnone : plan.calls.byCaller a = [] := Calls.byCaller_eq_nil fun ids m hleads =>
        hleads.ne_nil (List.length_eq_zero_iff.mp (Nat.le_zero.mp (hchains ids m hleads)))
      exact accept_succ_joinedBy hcalls (by simp [hnone])
  | succ n ih =>
      intro depth depth' a hchains hdepth hdepth'
      obtain ⟨depth, rfl⟩ := Nat.exists_eq_add_of_le' (Nat.le_trans (Nat.le_add_left 1 n) hdepth)
      obtain ⟨depth', rfl⟩ := Nat.exists_eq_add_of_le' (Nat.le_trans (Nat.le_add_left 1 n) hdepth')
      refine accept_succ_joinedBy hcalls fun entry hentry => ?_
      exact ih (Calls.leads_length_lt hchains hentry) (Nat.le_of_succ_le_succ hdepth)
        (Nat.le_of_succ_le_succ hdepth')

/-- An action that calls nothing has all its calls accepted. -/
theorem accept_of_silent {depth : Nat} {accepted : Accepted} {a : ActionId}
    (hfresh : accepted.lookup a = none) (hsilent : plan.calls.byCaller a = []) :
    accept plan (depth + 1) accepted a =
      (Build.high >>= fun node => pure (node, (a, node) :: accepted)) := by
  unfold accept
  rw [hfresh, hsilent]
  rfl

/-- The newcomer is the last whose calls are worked out, and it has none. -/
theorem acceptAll_joinedBy {reach : Reach} (hfollowed : Reach.Followed plan reach)
    {accepted : Accepted} {node : NodeId} {c c₁ c₂ : Circuit}
    (h : (acceptAll plan).Yields c accepted c₁)
    (hkeys : ∀ entry ∈ accepted, entry.1 < plan.roster.size)
    (hhigh : Build.high.Yields c₁ node c₂) :
    (acceptAll (plan.joinedBy newcomer)).Yields c ((plan.roster.size, node) :: accepted) c₂ := by
  have hold : (List.range plan.roster.size).foldlM (fun accepted action => do
      return (← accept (plan.joinedBy newcomer) (plan.roster.size + 2) accepted action).2) [] =
        acceptAll plan := by
    refine Build.foldlM_congr (fun a _ accepted => ?_) []
    rw [accept_joinedBy hfollowed.between plan.roster.size (fun ids m hleads =>
      hfollowed.bounded hleads) (Nat.le_refl _) (Nat.le_succ _)]
  have hfresh : accepted.lookup plan.roster.size = none := by
    refine List.lookup_eq_none_iff.mpr fun entry hentry => ?_
    simpa using Nat.ne_of_gt (hkeys entry hentry)
  have hsilent : (plan.joinedBy newcomer).calls.byCaller plan.roster.size = [] := by
    refine List.eq_nil_iff_forall_not_mem.mpr fun entry hentry => ?_
    obtain ⟨hsite, hcaller⟩ := Calls.mem_byCaller.mp hentry
    exact Nat.ne_of_lt (hfollowed.between _ _ hsite).1 hcaller
  unfold acceptAll
  rw [Plan.size_joinedBy, List.range_succ, List.foldlM_append, hold]
  refine Build.yields_bind_iff.mpr ⟨accepted, c₁, h, ?_⟩
  rw [List.foldlM_cons]
  refine Build.yields_bind_iff.mpr ⟨(plan.roster.size, node) :: accepted, c₂, ?_, rfl⟩
  rw [accept_of_silent hfresh hsilent]
  exact Build.yields_bind_iff.mpr ⟨_, c₂, Build.yields_bind_iff.mpr ⟨node, c₂, hhigh, rfl⟩, rfl⟩

/-! ### Grants and run bits -/

theorem candidateRunnable_joinedBy {accepted : Accepted} (node : NodeId) {candidate : Candidate}
    (hmembers : ∀ t ∈ candidate.members, t < plan.roster.size) :
    candidateRunnable (plan.joinedBy newcomer) ((plan.roster.size, node) :: accepted) candidate =
      candidateRunnable plan accepted candidate := by
  unfold candidateRunnable
  congr 1
  refine List.flatMap_congr fun t ht => ?_
  have hlt := hmembers t ht
  have hready : readyOf (plan.joinedBy newcomer) t = readyOf plan t := by
    unfold readyOf
    rw [Plan.actions_joinedBy hlt]
  rw [hready, Policy.lookup_cons, if_neg (Nat.ne_of_lt hlt)]

/-- The newcomer could run if it asks to. -/
theorem candidateRunnable_newcomer {accepted : Accepted} (node : NodeId) {own : Candidate}
    (hown : own.members = [plan.roster.size]) :
    candidateRunnable (plan.joinedBy newcomer) ((plan.roster.size, node) :: accepted) own =
      Build.and newcomer.ready node := by
  have hready : readyOf (plan.joinedBy newcomer) plan.roster.size = newcomer.ready :=
    readyOf_eq (Roster.actions_push_size newcomer)
  unfold candidateRunnable
  rw [hown, List.flatMap_singleton, hready, Policy.lookup_cons, if_pos rfl]
  show (Build.and newcomer.ready node >>= pure) = _
  rw [bind_pure]

theorem runCall_joinedBy {site : CallSite} (hcaller : site.caller < plan.roster.size) :
    runCall (plan.joinedBy newcomer) site = runCall plan site := by
  unfold runCall runOf
  rw [Plan.actions_joinedBy hcaller]

theorem runCalls_joinedBy (hcalls : plan.calls.Between plan.roster.size) :
    plan.calls.sites.toList.mapM (runCall (plan.joinedBy newcomer)) =
      plan.calls.sites.toList.mapM (runCall plan) := by
  refine Build.mapM_congr fun site hsite => ?_
  obtain ⟨id, hid⟩ := List.mem_iff_getElem?.mp hsite
  rw [Array.getElem?_toList] at hid
  exact runCall_joinedBy (hcalls id site hid).1

end Wiring

namespace Policy

variable {newcomer : Action} {contention contention' : Contention}
  (h : contention.Joined newcomer contention') {runnable : List NodeId} {node : NodeId}

include h

theorem eagerGrant_joined (hlength : runnable.length = contention.size) {current : Nat}
    (hcurrent : current < contention.size) (decided : List (Nat × NodeId)) :
    eagerGrant contention' (runnable ++ [node]) decided current =
      eagerGrant contention runnable decided current := by
  unfold eagerGrant
  rw [h.rivals_eq, List.getD_append _ _ _ _ (Nat.lt_of_lt_of_eq hcurrent hlength.symm)]

/-- Nothing stands against the newcomer. -/
theorem eagerGrant_newcomer (hlength : runnable.length = contention.size)
    (decided : List (Nat × NodeId)) :
    eagerGrant contention' (runnable ++ [node]) decided contention.size = pure node := by
  unfold eagerGrant
  rw [h.rivals_newcomer, List.getD_append_right _ _ _ _ (Nat.le_of_eq hlength), hlength]
  simp

theorem eagerDecide_joined (hlength : runnable.length = contention.size)
    (horder : ∀ c ∈ contention.order, c < contention.size) :
    eagerDecide contention' (runnable ++ [node]) =
      (eagerDecide contention runnable >>= fun decided =>
        pure ((contention.size, node) :: decided)) := by
  unfold eagerDecide
  rw [h.order, List.foldlM_append]
  congr 1
  · refine Build.foldlM_congr (fun current hcurrent decided => ?_) []
    rw [eagerGrant_joined h hlength (horder current hcurrent)]
  · funext decided
    rw [List.foldlM_cons, eagerGrant_newcomer h hlength]
    rfl

/-- **The newcomer is granted if it could run, and the others are granted what they were.** -/
theorem eagerGrants_joined (hlength : runnable.length = contention.size)
    (horder : ∀ c ∈ contention.order, c < contention.size) {grants : List NodeId} {c c' : Circuit}
    (hgrants : (eagerGrants contention runnable).Yields c grants c') :
    (eagerGrants contention' (runnable ++ [node])).Yields c (grants ++ [node]) c' := by
  have hlength' : (runnable ++ [node]).length = contention'.size := by
    rw [List.length_append, hlength, h.size_eq, List.length_singleton]
  rw [eagerGrants_eq hlength] at hgrants
  obtain ⟨decided, c₁, hdecided, hlookups⟩ := Build.yields_bind_iff.mp hgrants
  rw [eagerGrants_eq hlength', eagerDecide_joined h hlength horder, h.size_eq, List.range_succ]
  refine Build.yields_bind_iff.mpr ⟨(contention.size, node) :: decided, c₁, ?_, ?_⟩
  · exact Build.yields_bind_iff.mpr ⟨decided, c₁, hdecided, rfl⟩
  refine Build.mapM_concat_yields c' ?_ ?_
  · rw [Build.mapM_congr fun index hindex => ?_]
    · exact hlookups
    · rw [lookup_cons, if_neg (Nat.ne_of_lt (List.mem_range.mp hindex))]
  · rw [lookup_cons, if_pos rfl]
    rfl

end Policy

namespace Wiring

variable {plan : Plan} {newcomer : Action} {contention contention' : Contention}
  (h : contention.Joined newcomer contention') {grants : List NodeId} {node : NodeId}

include h

theorem runTransaction_joined (hlength : grants.length = contention.size) {id : ActionId}
    (hid : id < contention.slate.plan.roster.size) (transaction : Action) :
    runTransaction contention' (grants ++ [node]) id transaction =
      runTransaction contention grants id transaction := by
  have hgranted : (contention.holdersOf id).map ((grants ++ [node]).getD · 0) =
      (contention.holdersOf id).map (grants.getD · 0) := by
    refine List.map_congr_left fun c hc => List.getD_append _ _ _ _ ?_
    rw [hlength]
    exact Slate.Holds.lt_size (Slate.mem_holdersOf.mp hc)
  unfold runTransaction
  rw [show contention'.holdersOf id = contention.holdersOf id from h.slate.holdersOf_eq hid, hgranted]

/-- The newcomer runs if it is granted. -/
theorem runTransaction_newcomer (hlength : grants.length = contention.size) :
    runTransaction contention' (grants ++ [node]) contention.slate.plan.roster.size newcomer =
      Build.drive newcomer.run node := by
  have hgranted : (grants ++ [node]).getD contention.size 0 = node := by
    rw [List.getD_append_right _ _ _ _ (Nat.le_of_eq hlength), hlength]
    simp
  unfold runTransaction
  rw [show contention'.holdersOf contention.slate.plan.roster.size = [contention.size] from
    h.slate.holdersOf_newcomer, List.map_singleton, hgranted]
  rfl

/-- **The wiring with the newcomer is the wiring without it**, made in a circuit that gets a
constant, a gate and a driver in between. -/
theorem connect_joined {reach : Reach} (hfollowed : Reach.Followed plan reach)
    (hplan : contention.slate.plan = plan) (horder : ∀ c ∈ contention.order, c < contention.size)
    {accepted : Accepted} {runnable callRuns : List NodeId} {high : NodeId}
    {c c₁ c₂ c₃ c₄ c₅ c₆ c₇ c₈ c₉ : Circuit}
    (haccepted : (acceptAll plan).Yields c accepted c₁)
    (hkeys : ∀ entry ∈ accepted, entry.1 < plan.roster.size)
    (hhigh : Build.high.Yields c₁ high c₂)
    (hrunnable : (contention.candidates.mapM (candidateRunnable plan accepted)).Yields c₂ runnable c₃)
    (hand : (Build.and newcomer.ready high).Yields c₃ node c₄)
    (hgrants : (Policy.eagerGrants contention runnable).Yields c₄ grants c₅)
    (htransactions : (plan.roster.transactions.forM fun entry =>
      runTransaction contention grants entry.1 entry.2).Yields c₅ () c₆)
    (hdrive : (Build.drive newcomer.run node).Yields c₆ () c₇)
    (hcallRuns : (plan.calls.sites.toList.mapM (runCall plan)).Yields c₇ callRuns c₈)
    (hmethods : (plan.roster.methods.forM fun entry =>
      runMethod plan callRuns entry.1 entry.2).Yields c₈ () c₉) :
    (connect (plan.joinedBy newcomer) contention' .eager).Yields c
      ⟨runnable ++ [node], grants ++ [node], callRuns⟩ c₉ := by
  subst hplan
  have hmembers : ∀ candidate ∈ contention.candidates, ∀ t ∈ candidate.members,
      t < contention.slate.plan.roster.size := fun _ hcandidate _ ht =>
    h.slate.members_lt hcandidate ht
  have hlength : runnable.length = contention.size := (Build.mapM_yields hrunnable).length_eq.symm
  have hlength' : grants.length = contention.size := Policy.eager_serves.length_eq hgrants
  refine connect_yields_iff.mpr ⟨_, c₂, c₄, c₅, c₇, c₈,
    acceptAll_joinedBy hfollowed haccepted hkeys hhigh, ?_,
    Policy.eagerGrants_joined h hlength horder hgrants, ?_, ?_, ?_⟩
  · rw [h.candidates_eq]
    refine Build.mapM_concat_yields c₃ ?_ ?_
    · rw [Build.mapM_congr fun candidate hcandidate =>
        candidateRunnable_joinedBy high (hmembers candidate hcandidate)]
      exact hrunnable
    · rw [candidateRunnable_newcomer high rfl]
      exact hand
  · rw [Plan.transactions_joinedBy h.slate.reach.role]
    refine Build.forM_concat_yields c₆ ?_ ?_
    · rw [Build.forM_congr fun entry hentry =>
        runTransaction_joined h hlength' (Roster.lt_of_mem_transactions hentry) entry.2]
      exact htransactions
    · rw [runTransaction_newcomer h hlength']
      exact hdrive
  · rw [show (contention.slate.plan.joinedBy newcomer).calls = contention.slate.plan.calls from rfl,
      runCalls_joinedBy hfollowed.between]
    exact hcallRuns
  · rw [Plan.methods_joinedBy h.slate.reach.role]
    exact hmethods

end Wiring

end Interlock
