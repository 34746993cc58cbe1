/-
How the calls of an action are judged.

Whether the calls of an action are accepted is worked out once for every action and used again for
every caller, so what is known is said of the list of what was worked out: the node of an action is
high exactly if every call that it enables is taken by the method and the node of the method is
high.  Calls run in no circle, so that an entry is never written over, and the nodes can be read
down the calls to the end: the node of an action is high exactly if every call that is reached from
it by enabled calls is taken.

A validator is asked about a call site once, when the design is finished, and the node it answers
serves every cycle.  The nodes are therefore named before the words are: all statements about high
and low hold of all words that settle the circuit.
-/
import Mathlib.Data.List.GetD
import Interlock.System.Wiring
import Interlock.Proofs.Circuit.Bundle
import Interlock.Proofs.Contention.CallPath
import Interlock.Proofs.Declarations
import Interlock.Proofs.Granting
import Interlock.Proofs.Roster

namespace Interlock.Wiring

variable {d : Declarations} {s : Settled} {plan : Plan}

/-! ### Verdicts -/

/-- The node was answered, between two circuits, by the validator that judges the arguments of the
call site, if there is one. -/
def Asked (origin circuit : Circuit) (plan : Plan) (site : CallSite) (verdict : NodeId) : Prop :=
  ∀ method, plan.roster.actions[site.callee]? = some method →
    ∀ validator, method.validator? = some validator →
      ∃ c c', origin ≤ c ∧ (validator site.arguments).Yields c verdict c' ∧ c' ≤ circuit

/-- The method that is called is ready, and the verdict is high if the method has a validator. -/
def Takes (s : Settled) (plan : Plan) (site : CallSite) (verdict : NodeId) : Prop :=
  ∃ method, plan.roster.actions[site.callee]? = some method ∧ s.bit method.ready = true ∧
    (method.validator?.isSome = true → s.bit verdict = true)

theorem terms_ensures (hd : d.Sound) {site : CallSite} {method : Action}
    (hmethod : d.plan.roster.actions[site.callee]? = some method) :
    (terms method site.arguments).Ensures fun s own => ∃ verdict,
      Asked s.origin s.circuit d.plan site verdict ∧
        ∀ s : Settled, (∀ x ∈ own, s.bit x = true) ↔ Takes s d.plan site verdict := by
  unfold terms
  split
  · rename_i hnone
    refine Build.pure_ensures fun _ => ⟨0, fun other hother => ?_, fun s => ?_⟩
    · rw [hmethod] at hother
      cases hother
      rw [hnone]
      nofun
    · simp [Takes, hmethod, hnone]
  · rename_i validator hsome
    have hgrows := (hd.actions _ method hmethod).validator validator hsome site.arguments
    have hverdict : (verdict validator site.arguments).Ensures fun s node => ∃ c c', s.origin ≤ c ∧
        (validator site.arguments).Yields c node c' ∧ c' ≤ s.circuit := by
      refine Build.bind_ensures hgrows.ensures_yields fun node => ?_
      refine Build.bind_ensures (Build.width_grows node).ensures fun w => ?_
      refine Build.bind_ensures (Build.matchWidths_grows _ _ _).ensures fun _ => ?_
      exact Build.pure_ensures fun s _ _ h => h
    refine Build.bind_ensures hverdict fun node => ?_
    refine Build.pure_ensures fun _ hasked => ⟨node, fun other hother => ?_, fun s => ?_⟩
    · rw [hmethod] at hother
      cases hother
      rw [hsome]
      rintro _ ⟨⟩
      exact hasked
    · simp [Takes, hmethod, hsome]

/-! ### What was worked out -/

/-- What was worked out is still there. -/
def Kept (accepted accepted' : Accepted) : Prop :=
  ∀ a node, accepted.lookup a = some node → accepted'.lookup a = some node

theorem Kept.trans {accepted accepted' accepted'' : Accepted} (h : Kept accepted accepted')
    (h' : Kept accepted' accepted'') : Kept accepted accepted'' :=
  fun a node hnode => h' a node (h a node hnode)

/-- The node of an action. -/
def nodeOf (accepted : Accepted) (a : ActionId) : NodeId := (accepted.lookup a).getD 0

/-- The nodes are all high exactly if every one of the calls that is enabled is taken, and the node
of the method that is called is high. -/
structure Weighed (s : Settled) (plan : Plan) (accepted : Accepted) (verdict : CallId → NodeId)
    (sites : List (CallId × CallSite)) (nodes : List NodeId) : Prop where
  asked : ∀ entry ∈ sites, Asked s.origin s.circuit plan entry.2 (verdict entry.1)
  below : ∀ entry ∈ sites, (accepted.lookup entry.2.callee).isSome = true
  isBit : ∀ x ∈ nodes, s.IsBit x
  high_iff : ∀ s' : Settled, s'.origin = s.origin → s'.circuit = s.circuit →
    ((∀ x ∈ nodes, s'.bit x = true) ↔ ∀ entry ∈ sites, s'.bit entry.2.enable = true →
      Takes s' plan entry.2 (verdict entry.1) ∧ s'.bit (nodeOf accepted entry.2.callee) = true)

namespace Weighed

variable {accepted accepted' : Accepted} {verdict : CallId → NodeId}
  {sites : List (CallId × CallSite)} {nodes : List NodeId}

theorem nil : Weighed s plan accepted verdict [] [] :=
  ⟨nofun, nofun, nofun, fun _ _ _ => ⟨nofun, nofun⟩⟩

theorem keep (h : Weighed s plan accepted verdict sites nodes) (hkept : Kept accepted accepted') :
    Weighed s plan accepted' verdict sites nodes := by
  have hlookup : ∀ entry ∈ sites,
      accepted'.lookup entry.2.callee = accepted.lookup entry.2.callee := by
    intro entry hentry
    obtain ⟨node, hnode⟩ := Option.isSome_iff_exists.mp (h.below entry hentry)
    rw [hnode, hkept _ node hnode]
  refine ⟨h.asked, fun entry hentry => ?_, h.isBit, fun s' horigin hcircuit => ?_⟩
  · rw [hlookup entry hentry]
    exact h.below entry hentry
  · rw [h.high_iff s' horigin hcircuit]
    refine forall_congr' fun entry => forall_congr' fun hentry => ?_
    rw [nodeOf, nodeOf, hlookup entry hentry]

/-- One more call and its node. -/
theorem snoc (h : Weighed s plan accepted verdict sites nodes) {entry : CallId × CallSite}
    {own node : NodeId} (hone : Weighed s plan accepted (fun _ => own) [entry] [node])
    (hfresh : ∀ other ∈ sites, other.1 ≠ entry.1) :
    Weighed s plan accepted (Function.update verdict entry.1 own) (sites ++ [entry])
      (nodes ++ [node]) := by
  have hold : ∀ other ∈ sites, Function.update verdict entry.1 own other.1 = verdict other.1 :=
    fun other hother => Function.update_of_ne (hfresh other hother) _ _
  have hnew : Function.update verdict entry.1 own entry.1 = own := Function.update_self ..
  refine ⟨?_, ?_, ?_, fun s' horigin hcircuit => ?_⟩
  · refine List.forall_mem_append.mpr ⟨fun other hother => ?_, List.forall_mem_singleton.mpr ?_⟩
    · rw [hold other hother]
      exact h.asked other hother
    · rw [hnew]
      exact hone.asked entry (List.mem_singleton_self _)
  · exact List.forall_mem_append.mpr ⟨h.below, hone.below⟩
  · exact List.forall_mem_append.mpr ⟨h.isBit, hone.isBit⟩
  · rw [List.forall_mem_append, List.forall_mem_append, h.high_iff s' horigin hcircuit,
      hone.high_iff s' horigin hcircuit, List.forall_mem_singleton, List.forall_mem_singleton, hnew]
    refine and_congr_left fun _ => forall_congr' fun other => forall_congr' fun hother => ?_
    rw [hold other hother]

/-- One node that is high if all are. -/
theorem all (h : Weighed s plan accepted verdict sites nodes) {node : NodeId}
    (hnode : s.Everywhere fun s => (s.IsBit node ↔ ∀ x ∈ nodes, s.IsBit x) ∧
      s.bit node = nodes.all s.bit) : Weighed s plan accepted verdict sites [node] := by
  refine ⟨h.asked, h.below, ?_, fun s' horigin hcircuit => ?_⟩
  · exact List.forall_mem_singleton.mpr (hnode.here.1.mpr h.isBit)
  · rw [List.forall_mem_singleton, (hnode s' horigin hcircuit).2, List.all_eq_true,
      h.high_iff s' horigin hcircuit]

end Weighed

/-- The calls of every action that has a node are weighed by it. -/
def Memo (s : Settled) (plan : Plan) (accepted : Accepted) : Prop :=
  ∀ a node, accepted.lookup a = some node →
    ∃ verdict, Weighed s plan accepted verdict (plan.calls.byCaller a) [node]

theorem Memo.keep {accepted accepted' : Accepted} (h : Memo s plan accepted)
    (hkept : Kept accepted accepted') {a : ActionId} {node : NodeId}
    (hnode : accepted.lookup a = some node) :
    ∃ verdict, Weighed s plan accepted' verdict (plan.calls.byCaller a) [node] := by
  obtain ⟨verdict, hweighed⟩ := h a node hnode
  exact ⟨verdict, hweighed.keep hkept⟩

/-- What working out the calls of an action leaves: a node for it, and for others only if it calls
them in the end. -/
structure Judged (s : Settled) (plan : Plan) (accepted : Accepted) (a : ActionId) (node : NodeId)
    (accepted' : Accepted) : Prop where
  kept : Kept accepted accepted'
  own : accepted'.lookup a = some node
  fresh : ∀ b, (accepted'.lookup b).isSome = true →
    (accepted.lookup b).isSome = true ∨ b = a ∨ ∃ ids, plan.calls.Leads a ids b
  memo : Memo s plan accepted'

/-! ### Working it out -/

theorem enable_isBit (hd : d.Sound) (hle : d.circuit ≤ s.circuit) {id : CallId} {site : CallSite}
    (hsite : d.plan.calls.sites[id]? = some site) : s.IsBit site.enable :=
  Circuit.width_of_le hle (hd.sites id site hsite).enable

/-- What working out one call site leaves. -/
structure SiteJudged (s : Settled) (plan : Plan) (accepted : Accepted) (entry : CallId × CallSite)
    (node : NodeId) (accepted' : Accepted) : Prop where
  kept : Kept accepted accepted'
  fresh : ∀ b, (accepted'.lookup b).isSome = true →
    (accepted.lookup b).isSome = true ∨ ∃ ids, plan.calls.Leads entry.2.caller ids b
  memo : Memo s plan accepted'
  weighed : ∃ own, Weighed s plan accepted' (fun _ => own) [entry] [node]

theorem acceptSite_ensures (hd : d.Sound) {below : Accepted → ActionId → Build (NodeId × Accepted)}
    {id : CallId} {site : CallSite} (hsite : d.plan.calls.sites[id]? = some site)
    {accepted : Accepted} (hbelow : (below accepted site.callee).Ensures fun s answer =>
      d.circuit ≤ s.circuit → Memo s d.plan accepted →
        Judged s d.plan accepted site.callee answer.1 answer.2) :
    (acceptSite d.plan below accepted site).Ensures fun s answer =>
      d.circuit ≤ s.circuit → Memo s d.plan accepted →
        SiteJudged s d.plan accepted (id, site) answer.1 answer.2 := by
  obtain ⟨method, hmethod, -⟩ := (hd.sites id site hsite).callee
  unfold acceptSite
  rw [hmethod]
  refine Build.bind_ensures (terms_ensures hd hmethod) fun own => ?_
  refine Build.bind_ensures hbelow fun (calls, accepted') => ?_
  refine Build.bind_ensures (Build.andAll_ensures (own ++ [calls])).everywhere fun all => ?_
  refine Build.bind_ensures (Build.implies_ensures site.enable all).everywhere fun node => ?_
  refine Build.pure_ensures fun s himplies hall hjudged ⟨verdict, hasked, htakes⟩ hle hmemo => ?_
  obtain ⟨hkept, hcallee, hfresh, hmemo'⟩ := hjudged hle hmemo
  refine ⟨hkept, fun b hb => ?_, hmemo', verdict, ?_, ?_, ?_, fun s' horigin hcircuit => ?_⟩
  · rcases hfresh b hb with hb | rfl | ⟨ids, hleads⟩
    · exact .inl hb
    · exact .inr ⟨[id], .last hsite⟩
    · exact .inr ⟨id :: ids, .step hsite hleads⟩
  · exact List.forall_mem_singleton.mpr hasked
  · refine List.forall_mem_singleton.mpr ?_
    rw [hcallee]
    rfl
  · exact List.forall_mem_singleton.mpr (himplies.here.1.mp (enable_isBit hd hle hsite))
  · have henable : s'.IsBit site.enable := enable_isBit hd (hcircuit ▸ hle) hsite
    have hnode : nodeOf accepted' site.callee = calls := by rw [nodeOf, hcallee, Option.getD_some]
    rw [List.forall_mem_singleton, List.forall_mem_singleton, hnode,
      (himplies s' horigin hcircuit).2 henable, (hall s' horigin hcircuit).2, Bool.or_eq_true,
      Bool.not_eq_true', ← Bool.not_eq_true, ← imp_iff_not_or, List.all_eq_true,
      List.forall_mem_append, List.forall_mem_singleton, htakes]

/-- What working out some call sites of an action leaves. -/
structure SitesJudged (s : Settled) (plan : Plan) (accepted : Accepted) (a : ActionId)
    (sites : List (CallId × CallSite)) (nodes : List NodeId) (accepted' : Accepted) : Prop where
  kept : Kept accepted accepted'
  fresh : ∀ b, (accepted'.lookup b).isSome = true →
    (accepted.lookup b).isSome = true ∨ ∃ ids, plan.calls.Leads a ids b
  memo : Memo s plan accepted'
  weighed : ∃ verdict, Weighed s plan accepted' verdict sites nodes

theorem acceptSites_ensures (hd : d.Sound)
    {below : Accepted → ActionId → Build (NodeId × Accepted)} {a : ActionId}
    (hbelow : ∀ entry ∈ d.plan.calls.byCaller a, ∀ accepted,
      (below accepted entry.2.callee).Ensures fun s answer =>
        d.circuit ≤ s.circuit → Memo s d.plan accepted →
          Judged s d.plan accepted entry.2.callee answer.1 answer.2) (accepted : Accepted) :
    ((d.plan.calls.byCaller a).foldlM
      (fun ((nodes, accepted) : List NodeId × Accepted) ((_, site) : CallId × CallSite) => do
        let (node, accepted) ← acceptSite d.plan below accepted site
        return (nodes ++ [node], accepted))
      ([], accepted)).Ensures fun s state => d.circuit ≤ s.circuit → Memo s d.plan accepted →
        SitesJudged s d.plan accepted a (d.plan.calls.byCaller a) state.1 state.2 := by
  refine (Build.foldlM_ensures (I := fun done s state => d.circuit ≤ s.circuit →
    Memo s d.plan accepted → SitesJudged s d.plan accepted a done state.1 state.2) ?_ _).mono
      fun s state hall => ?_
  · rintro done ⟨id, site⟩ rest hsplit ⟨nodes, accepted₁⟩
    have hmem : (id, site) ∈ d.plan.calls.byCaller a := by rw [hsplit]; simp
    obtain ⟨hsite, rfl⟩ := Calls.mem_byCaller.mp hmem
    refine Build.bind_ensures (acceptSite_ensures hd hsite (hbelow _ hmem accepted₁))
      fun (node, accepted₂) => ?_
    refine Build.pure_ensures fun s hone hdone hle hmemo => ?_
    obtain ⟨hkept₁, hfresh₁, hmemo₁, verdict, hweighed⟩ := hdone hle hmemo
    obtain ⟨hkept₂, hfresh₂, hmemo₂, own, hown⟩ := hone hle hmemo₁
    refine ⟨hkept₁.trans hkept₂, fun b hb => ?_, hmemo₂, _, (hweighed.keep hkept₂).snoc hown ?_⟩
    · rcases hfresh₂ b hb with hb | hleads
      · exact hfresh₁ b hb
      · exact .inr hleads
    · have hpairwise := @Calls.byCaller_pairwise d.plan.calls site.caller
      rw [hsplit, List.pairwise_append] at hpairwise
      exact fun other hother => hpairwise.2.2 other hother _ (by simp)
  · exact hall fun _ hmemo =>
      ⟨fun _ _ h => h, fun _ h => .inl h, hmemo, fun _ => 0, .nil⟩

/-- One action is worked out if the methods that it calls are. -/
theorem acceptOne_ensures (hd : d.Sound) (hacyclic : ∀ a ids, ¬ d.plan.calls.Leads a ids a)
    {depth : Nat} {a : ActionId}
    (hbelow : ∀ entry ∈ d.plan.calls.byCaller a, ∀ accepted,
      (accept d.plan depth accepted entry.2.callee).Ensures fun s answer =>
        d.circuit ≤ s.circuit → Memo s d.plan accepted →
          Judged s d.plan accepted entry.2.callee answer.1 answer.2) (accepted : Accepted) :
    (accept d.plan (depth + 1) accepted a).Ensures fun s answer =>
      d.circuit ≤ s.circuit → Memo s d.plan accepted →
        Judged s d.plan accepted a answer.1 answer.2 := by
  unfold accept
  cases hlookup : accepted.lookup a with
  | some node =>
      -- It was worked out for an earlier caller.
      exact Build.pure_ensures fun s _ hmemo =>
        ⟨fun _ _ h => h, hlookup, fun _ h => .inl h, hmemo⟩
  | none =>
      refine Build.bind_ensures (acceptSites_ensures hd hbelow accepted)
        fun (nodes, accepted₁) => ?_
      refine Build.bind_ensures (Build.andAll_ensures nodes).everywhere fun node => ?_
      refine Build.pure_ensures fun s hall hsites hle hmemo => ?_
      obtain ⟨hkept, hfresh, hmemo₁, verdict, hweighed⟩ := hsites hle hmemo
      -- The action calls itself nowhere, so that it has no node yet.
      have hnone : accepted₁.lookup a = none := by
        cases hown : accepted₁.lookup a with
        | none => rfl
        | some other =>
            rcases hfresh a (by rw [hown]; rfl) with h | ⟨ids, hleads⟩
            · rw [hlookup] at h
              cases h
            · exact absurd hleads (hacyclic a ids)
      have hkept₁ : Kept accepted₁ ((a, node) :: accepted₁) := by
        intro b other hother
        rw [Policy.lookup_cons, if_neg, hother]
        rintro rfl
        rw [hnone] at hother
        cases hother
      refine ⟨hkept.trans hkept₁, ?_, fun b hb => ?_, fun b other hother => ?_⟩
      · rw [Policy.lookup_cons, if_pos rfl]
      · rw [Policy.lookup_cons] at hb
        split at hb
        · rename_i heq
          exact .inr (.inl heq)
        · exact (hfresh b hb).imp_right .inr
      · rw [Policy.lookup_cons] at hother
        split at hother
        · rename_i heq
          cases hother
          rw [heq]
          exact ⟨verdict, (hweighed.all hall).keep hkept₁⟩
        · exact hmemo₁.keep hkept₁ hother

/-- Every action that is no further from the end of its calls than the depth is worked out. -/
theorem accept_ensures (hd : d.Sound) (hacyclic : ∀ a ids, ¬ d.plan.calls.Leads a ids a)
    (depth : Nat) : ∀ (a : ActionId) (accepted : Accepted),
      (∀ ids m, d.plan.calls.Leads a ids m → ids.length ≤ depth) →
        (accept d.plan (depth + 1) accepted a).Ensures fun s answer =>
          d.circuit ≤ s.circuit → Memo s d.plan accepted →
            Judged s d.plan accepted a answer.1 answer.2 := by
  induction depth with
  | zero =>
      intro a accepted hbound
      have hnone : d.plan.calls.byCaller a = [] := Calls.byCaller_eq_nil fun ids m hleads =>
        hleads.ne_nil (List.length_eq_zero_iff.mp (Nat.le_zero.mp (hbound ids m hleads)))
      exact acceptOne_ensures hd hacyclic (by rw [hnone]; nofun) accepted
  | succ depth ih =>
      intro a accepted hbound
      exact acceptOne_ensures hd hacyclic
        (fun entry hentry accepted => ih _ accepted (Calls.leads_length_lt hbound hentry)) accepted

/-- In the end every action has a node that weighs its calls. -/
theorem acceptAll_ensures (hd : d.Sound) {reach : Reach} (h : Reach.Followed d.plan reach) :
    (acceptAll d.plan).Ensures fun s accepted => d.circuit ≤ s.circuit →
      Memo s d.plan accepted ∧
        ∀ a < d.plan.roster.size, (accepted.lookup a).isSome = true := by
  have hacyclic : ∀ a ids, ¬ d.plan.calls.Leads a ids a := by
    intro a ids hleads
    obtain ⟨ids', hleads', hlength⟩ := hleads.exists_longer d.plan.roster.size
    exact absurd (h.bounded hleads') (Nat.not_le.mpr hlength)
  refine (Build.foldlM_ensures (I := fun done s accepted => d.circuit ≤ s.circuit →
    Memo s d.plan accepted ∧ ∀ a ∈ done, (accepted.lookup a).isSome = true) ?_ []).mono
    fun s accepted hall hle => ?_
  · intro done a rest _ accepted
    refine Build.bind_ensures (accept_ensures hd hacyclic _ a accepted
      fun _ _ hleads => h.bounded hleads) fun answer => ?_
    refine Build.pure_ensures fun s hjudges hdone hle => ?_
    obtain ⟨hmemo, hbefore⟩ := hdone hle
    obtain ⟨hkept, hown, -, hmemo'⟩ := hjudges hle hmemo
    refine ⟨hmemo', List.forall_mem_append.mpr ⟨fun b hb => ?_, ?_⟩⟩
    · obtain ⟨node, hnode⟩ := Option.isSome_iff_exists.mp (hbefore b hb)
      rw [hkept b node hnode]
      rfl
    · rw [List.forall_mem_singleton, hown]
      rfl
  · obtain ⟨hmemo, hkeys⟩ := hall (fun _ => ⟨nofun, nofun⟩) hle
    exact ⟨hmemo, fun a ha => hkeys a (List.mem_range.mpr ha)⟩

/-! ### Down the calls -/

/-- The last of every chain of enabled calls of an action is taken. -/
def Accepts (s : Settled) (plan : Plan) (verdict : CallId → NodeId) (a : ActionId) : Prop :=
  ∀ ids m, plan.calls.Leads a ids m →
    (∀ id ∈ ids, ∀ site, plan.calls.sites[id]? = some site → s.bit site.enable = true) →
      ∀ id site, ids.getLast? = some id → plan.calls.sites[id]? = some site →
        Takes s plan site (verdict id)

/-- The chains of an action are its calls and what follows on them. -/
theorem accepts_iff {verdict : CallId → NodeId} {a : ActionId} : Accepts s plan verdict a ↔
    ∀ entry ∈ plan.calls.byCaller a, s.bit entry.2.enable = true →
      Takes s plan entry.2 (verdict entry.1) ∧ Accepts s plan verdict entry.2.callee := by
  constructor
  · rintro h ⟨id, site⟩ hentry henable
    obtain ⟨hsite, rfl⟩ := Calls.mem_byCaller.mp hentry
    have hown : ∀ other, plan.calls.sites[id]? = some other → s.bit other.enable = true := by
      rw [hsite]
      rintro _ ⟨⟩
      exact henable
    refine ⟨h [id] _ (.last hsite) (by simpa using hown) id site rfl hsite, ?_⟩
    intro ids m hleads henables last other hlast hother
    refine h (id :: ids) m (.step hsite hleads) ?_ last other ?_ hother
    · exact List.forall_mem_cons.mpr ⟨hown, henables⟩
    · obtain ⟨next, rest, rfl⟩ := List.exists_cons_of_ne_nil hleads.ne_nil
      rw [List.getLast?_cons_cons]
      exact hlast
  · intro h ids m hleads henables last other hlast hother
    cases hleads with
    | @last id site hsite =>
        obtain rfl : id = last := Option.some.inj hlast
        rw [hsite] at hother
        cases hother
        have hown := henables id (List.mem_singleton_self _) _ hsite
        exact (h (id, other) (Calls.mem_byCaller.mpr ⟨hsite, rfl⟩) hown).1
    | @step id site ids _ hsite hleads =>
        obtain ⟨next, rest, rfl⟩ := List.exists_cons_of_ne_nil hleads.ne_nil
        rw [List.getLast?_cons_cons] at hlast
        obtain ⟨-, hbelow⟩ := h (id, site) (Calls.mem_byCaller.mpr ⟨hsite, rfl⟩)
          (henables id (by simp) site hsite)
        exact hbelow _ m hleads (fun id hid => henables id (List.mem_cons_of_mem _ hid)) last other
          hlast hother

/-- **The node of an action is high exactly if all that it enables is taken**, down the calls to
the end.  The verdicts are the same for all words. -/
theorem exists_verdicts {reach : Reach} (h : Reach.Followed plan reach) {accepted : Accepted}
    (hmemo : Memo s plan accepted)
    (hall : ∀ a < plan.roster.size, (accepted.lookup a).isSome = true) :
    ∃ verdict : CallId → NodeId,
      (∀ id site, plan.calls.sites[id]? = some site →
        Asked s.origin s.circuit plan site (verdict id)) ∧
      ∀ s' : Settled, s'.origin = s.origin → s'.circuit = s.circuit → ∀ a < plan.roster.size,
        (s'.bit (nodeOf accepted a) = true ↔ Accepts s' plan verdict a) := by
  have hweighed : ∀ a, ∃ verdict, a < plan.roster.size →
      Weighed s plan accepted verdict (plan.calls.byCaller a) [nodeOf accepted a] := by
    intro a
    by_cases ha : a < plan.roster.size
    · obtain ⟨node, hnode⟩ := Option.isSome_iff_exists.mp (hall a ha)
      obtain ⟨verdict, hverdict⟩ := hmemo a node hnode
      refine ⟨verdict, fun _ => ?_⟩
      rw [nodeOf, hnode]
      exact hverdict
    · exact ⟨fun _ => 0, fun h => absurd h ha⟩
  choose verdictOf hverdictOf using hweighed
  let verdict : CallId → NodeId := fun id =>
    (plan.calls.sites[id]?.map fun site => verdictOf site.caller id).getD 0
  have hverdict : ∀ {id : CallId} {site : CallSite}, plan.calls.sites[id]? = some site →
      verdict id = verdictOf site.caller id := by
    intro id site hsite
    simp only [verdict, hsite, Option.map_some, Option.getD_some]
  refine ⟨verdict, fun id site hsite => ?_, fun s' horigin hcircuit => ?_⟩
  · rw [hverdict hsite]
    exact (hverdictOf site.caller (h.between id site hsite).1).asked (id, site)
      (Calls.mem_byCaller.mpr ⟨hsite, rfl⟩)
  · -- by induction on how long the chains of an action are
    suffices key : ∀ n a, a < plan.roster.size →
        (∀ ids m, plan.calls.Leads a ids m → ids.length ≤ n) →
          (s'.bit (nodeOf accepted a) = true ↔ Accepts s' plan verdict a) from
      fun a ha => key _ a ha fun _ _ hleads => h.bounded hleads
    intro n
    induction n with
    | zero =>
        intro a ha hbound
        have hnone : plan.calls.byCaller a = [] := Calls.byCaller_eq_nil fun ids m hleads =>
          hleads.ne_nil (List.length_eq_zero_iff.mp (Nat.le_zero.mp (hbound ids m hleads)))
        have hhigh := (hverdictOf a ha).high_iff s' horigin hcircuit
        rw [List.forall_mem_singleton, hnone] at hhigh
        rw [hhigh, accepts_iff, hnone]
        simp
    | succ n ih =>
        intro a ha hbound
        have hhigh := (hverdictOf a ha).high_iff s' horigin hcircuit
        rw [List.forall_mem_singleton] at hhigh
        rw [hhigh, accepts_iff]
        refine forall_congr' fun entry => forall_congr' fun hentry => imp_congr_right fun _ => ?_
        obtain ⟨hsite, rfl⟩ := Calls.mem_byCaller.mp hentry
        rw [hverdict hsite, ih _ (h.between _ _ hsite).2 (Calls.leads_length_lt hbound hentry)]

end Interlock.Wiring
