/-
Finishing a complete design is refused for its contention only.

Once the open results are grounded, the logic that schedules the actions is added gate by gate.  What
judges the calls, and the grants, are made of nodes that rest on nothing, and so are the run wires of
transactions.  A call rests on the run wire of its caller, and the wires of a method rest on the run
wires of its callers.  As calls run in no circle, in the end every wire rests on nothing, down the
calls, and with the wires everything else.
-/
import Interlock.Proofs.Contention.Refusals
import Interlock.Proofs.Granting
import Interlock.Proofs.System.Grounding
import Interlock.Proofs.System.Running

namespace Interlock

variable {d : Declarations} {g c : Circuit}

/-! ### Verdicts -/

namespace Declarations

/-- While the schedule is added, all wires that finishing drives are still targets, or have been
driven. -/
abbrev Scheduling (d : Declarations) (g : Circuit) (targets : List NodeId) : Circuit → Prop :=
  g.Staged d.awaited targets

theorem Vets.makes {request : Build NodeId} (h : d.Vets request) (hg : d.Grounded g)
    (hc : d.Scheduling g d.targets c) : request.Makes c (d.Scheduling g d.targets) ∅ 1 := by
  have htidy : d.Tidy c := tidy_of_staged hc
  obtain ⟨node, c', hyields, hbit, htidy', hindependent⟩ :=
    h.answered c (Circuit.le_trans hg.grown hc.grown) hc.wellFormed htidy fun node hlt hnode =>
      independent_of_rests htidy.awaited ((hg.independent node hlt hnode).mono hc.grown)
  have hsteps := h.builds c
  rw [hyields] at hsteps
  have hwell : c'.WellFormed := hsteps.wellFormed hc.wellFormed
  exact ⟨node, c', hyields, hsteps.le,
    htidy'.staged (Circuit.le_trans hc.grown hsteps.le) hwell hc.distinct, hbit,
    htidy'.rests_of_independent hwell (Circuit.lt_size_of_width hbit) hindependent⟩

end Declarations

namespace Wiring

/-! ### Acceptance -/

/-- What was worked out are bits that rest on nothing. -/
def Settles (c : Circuit) (accepted : Accepted) : Prop :=
  ∀ a node, accepted.lookup a = some node → c.Signal ∅ 1 node

theorem settles_nil : Settles c [] := by
  intro a node hnode
  cases hnode

theorem Settles.mono {c' : Circuit} {accepted : Accepted} (h : Settles c accepted) (hle : c ≤ c') :
    Settles c' accepted :=
  fun a node hnode => (h a node hnode).mono hle

theorem Settles.cons {accepted : Accepted} (h : Settles c accepted) {a : ActionId} {node : NodeId}
    (hnode : c.Signal ∅ 1 node) : Settles c ((a, node) :: accepted) := by
  intro b other hother
  rw [Policy.lookup_cons] at hother
  split at hother
  · cases hother
    exact hnode
  · exact h b other hother

theorem isSome_lookup_cons {accepted : Accepted} {a b : ActionId} {node : NodeId}
    (h : b = a ∨ (accepted.lookup b).isSome = true) :
    (List.lookup b ((a, node) :: accepted)).isSome = true := by
  rw [Policy.lookup_cons]
  split
  · rfl
  · exact h.resolve_left ‹_›

/-- The answer is a bit like all that was worked out, and nothing that was worked out is missing. -/
structure Answered (c : Circuit) (accepted : Accepted) (answer : NodeId × Accepted) : Prop where
  signal : c.Signal ∅ 1 answer.1
  settles : Settles c answer.2
  keeps : ∀ a, (accepted.lookup a).isSome = true → (answer.2.lookup a).isSome = true

/-- The calls that were judged so far have bits, and nothing that was worked out is missing. -/
structure SitesAnswered (c : Circuit) (accepted : Accepted) (state : List NodeId × Accepted) :
    Prop where
  signals : ∀ x ∈ state.1, c.Signal ∅ 1 x
  settles : Settles c state.2
  keeps : ∀ a, (accepted.lookup a).isSome = true → (state.2.lookup a).isSome = true

section Acceptance

variable (h : d.Complete) (hd : d.Orderly) (hg : d.Grounded g)
include h hd hg

omit hd in
theorem terms_answers {id : CallId} {site : CallSite} (hsite : d.plan.calls.sites[id]? = some site)
    {method : Action} (hmethod : d.plan.roster.actions[site.callee]? = some method)
    (hc : d.Scheduling g d.targets c) :
    (terms method site.arguments).Answers c fun c' nodes =>
      d.Scheduling g d.targets c' ∧ ∀ x ∈ nodes, c'.Signal ∅ 1 x := by
  have hready := (hg.ready _ method hmethod).mono hc.grown
  unfold terms
  cases hvalidator : method.validator? with
  | none => exact Build.pure_answers ⟨hc, List.forall_mem_singleton.mpr hready⟩
  | some validator =>
      have hvets := h.validators id site hsite method hmethod validator hvalidator
      have hverdict : (verdict validator site.arguments).Makes c (d.Scheduling g d.targets) ∅ 1 := by
        refine Build.bind_answers (hvets.makes hg hc) fun valid c₁ _ h₁ => ?_
        refine Build.bind_answers_of_yields (Build.width_yields_iff.mpr ⟨h₁.2.width, rfl⟩) ?_
        exact Build.bind_answers_of_yields (a := ())
          (Build.matchWidths_yields_iff.mpr ⟨rfl, rfl⟩) (Build.pure_makes h₁.1 h₁.2)
      refine Build.bind_answers hverdict fun valid c₁ hle₁ h₁ => Build.pure_answers ⟨h₁.1, ?_⟩
      exact List.forall_mem_cons.mpr ⟨hready.mono hle₁, List.forall_mem_singleton.mpr h₁.2⟩

theorem acceptSite_answers {below : Accepted → ActionId → Build (NodeId × Accepted)}
    {id : CallId} {site : CallSite} (hsite : d.plan.calls.sites[id]? = some site)
    (hbelow : ∀ accepted c, d.Scheduling g d.targets c → Settles c accepted →
      (below accepted site.callee).Answers c fun c' answer =>
        d.Scheduling g d.targets c' ∧ Answered c' accepted answer)
    {accepted : Accepted} (hc : d.Scheduling g d.targets c) (haccepted : Settles c accepted) :
    (acceptSite d.plan below accepted site).Answers c fun c' answer =>
      d.Scheduling g d.targets c' ∧ Answered c' accepted answer := by
  obtain ⟨method, hmethod, -⟩ := (hd.sites id site hsite).callee
  have henable := (hg.enable id site hsite).mono hc.grown
  unfold acceptSite
  rw [hmethod]
  refine Build.bind_answers (terms_answers h hg hsite hmethod hc) fun own c₁ hle₁ h₁ => ?_
  refine Build.bind_answers (hbelow accepted c₁ h₁.1 (haccepted.mono hle₁))
    fun (calls, accepted₂) c₂ hle₂ h₂ => ?_
  have hterms : ∀ x ∈ own ++ [calls], c₂.Signal ∅ 1 x := List.forall_mem_append.mpr
    ⟨fun x hx => (h₁.2 x hx).mono hle₂, List.forall_mem_singleton.mpr h₂.2.signal⟩
  refine Build.bind_answers (Build.andAll_makes Circuit.staged_lasts h₂.1 hterms)
    fun all c₃ hle₃ h₃ => ?_
  refine Build.bind_answers (Build.implies_makes Circuit.staged_lasts h₃.1
    (((henable.mono hle₁).mono hle₂).mono hle₃) h₃.2) fun node c₄ hle₄ h₄ => ?_
  exact Build.pure_answers ⟨h₄.1, h₄.2, (h₂.2.settles.mono hle₃).mono hle₄, h₂.2.keeps⟩

theorem acceptSites_answers {below : Accepted → ActionId → Build (NodeId × Accepted)} {a : ActionId}
    (hbelow : ∀ m accepted c, d.Scheduling g d.targets c → Settles c accepted →
      (below accepted m).Answers c fun c' answer =>
        d.Scheduling g d.targets c' ∧ Answered c' accepted answer)
    {accepted : Accepted} (hc : d.Scheduling g d.targets c) (haccepted : Settles c accepted) :
    ((d.plan.calls.byCaller a).foldlM
      (fun ((nodes, accepted) : List NodeId × Accepted) ((_, site) : CallId × CallSite) => do
        let (node, accepted) ← acceptSite d.plan below accepted site
        return (nodes ++ [node], accepted))
      ([], accepted)).Answers c fun c' state =>
        d.Scheduling g d.targets c' ∧ SitesAnswered c' accepted state := by
  refine Build.foldlM_answers
    (I := fun _ c' state => d.Scheduling g d.targets c' ∧ SitesAnswered c' accepted state)
    ?_ ⟨hc, nofun, haccepted, fun _ hb => hb⟩
  rintro done ⟨id, site⟩ rest hsplit ⟨nodes, accepted₁⟩ c₁ hle₁ ⟨hc₁, hnodes, hsettles, hkeeps⟩
  have hmem : (id, site) ∈ d.plan.calls.byCaller a := by rw [hsplit]; simp
  obtain ⟨hsite, -⟩ := Calls.mem_byCaller.mp hmem
  refine Build.bind_answers (acceptSite_answers h hd hg hsite (hbelow _) hc₁ hsettles)
    fun (node, accepted₂) c₂ hle₂ h₂ => ?_
  exact Build.pure_answers ⟨h₂.1, List.forall_mem_append.mpr
    ⟨fun x hx => (hnodes x hx).mono hle₂, List.forall_mem_singleton.mpr h₂.2.signal⟩,
    h₂.2.settles, fun b hb => h₂.2.keeps b (hkeeps b hb)⟩

/-- Every action is answered, and what was worked out for it is kept if the depth allows it. -/
theorem accept_answers (depth : Nat) : ∀ (a : ActionId) (accepted : Accepted) (c : Circuit),
    d.Scheduling g d.targets c → Settles c accepted →
      (accept d.plan depth accepted a).Answers c fun c' answer =>
        (d.Scheduling g d.targets c' ∧ Answered c' accepted answer) ∧
          (0 < depth → (answer.2.lookup a).isSome = true) := by
  induction depth with
  | zero =>
      intro a accepted c hc haccepted
      refine Build.bind_answers (@Build.low_makes c _ Circuit.staged_lasts hc ∅)
        fun low c₁ hle₁ h₁ => ?_
      exact Build.pure_answers ⟨⟨h₁.1, h₁.2, haccepted.mono hle₁, fun _ hb => hb⟩,
        fun hdepth => absurd hdepth (Nat.lt_irrefl 0)⟩
  | succ depth ih =>
      intro a accepted c hc haccepted
      unfold accept
      cases hlookup : accepted.lookup a with
      | some node =>
          refine Build.pure_answers ⟨⟨hc, haccepted a node hlookup, haccepted, fun _ hb => hb⟩,
            fun _ => ?_⟩
          rw [hlookup]
          rfl
      | none =>
          refine Build.bind_answers (acceptSites_answers h hd hg (fun m accepted c hc haccepted =>
            (ih m accepted c hc haccepted).mono fun _ _ _ h => h.1) hc haccepted)
            fun answer c₁ hle₁ h₁ => ?_
          obtain ⟨nodes, accepted₁⟩ := answer
          refine Build.bind_answers (Build.andAll_makes Circuit.staged_lasts h₁.1 h₁.2.signals)
            fun node c₂ hle₂ h₂ => ?_
          exact Build.pure_answers ⟨⟨h₂.1, h₂.2, (h₁.2.settles.mono hle₂).cons h₂.2,
            fun b hb => isSome_lookup_cons (.inr (h₁.2.keeps b hb))⟩,
            fun _ => isSome_lookup_cons (.inl rfl)⟩

/-- The calls of all actions are judged. -/
theorem acceptAll_answers (hc : d.Scheduling g d.targets c) :
    (acceptAll d.plan).Answers c fun c' accepted => d.Scheduling g d.targets c' ∧
      Settles c' accepted ∧ ∀ a < d.plan.roster.size, (accepted.lookup a).isSome = true := by
  refine (Build.foldlM_answers (I := fun done c' (accepted : Accepted) =>
    d.Scheduling g d.targets c' ∧ Settles c' accepted ∧
      ∀ a ∈ done, (accepted.lookup a).isSome = true) ?_ ⟨hc, settles_nil, nofun⟩).mono
    fun c' accepted _ ⟨hc', hsettles, hall⟩ =>
      ⟨hc', hsettles, fun a ha => hall a (List.mem_range.mpr ha)⟩
  intro done a rest _ accepted c₁ _ ⟨hc₁, hsettles, hall⟩
  refine Build.bind_answers (accept_answers h hd hg _ a accepted c₁ hc₁ hsettles)
    fun answer c₂ _ h₂ => ?_
  obtain ⟨⟨hc₂, hanswered⟩, hown⟩ := h₂
  refine Build.pure_answers ⟨hc₂, hanswered.settles, ?_⟩
  exact List.forall_mem_append.mpr ⟨fun b hb => hanswered.keeps b (hall b hb),
    List.forall_mem_singleton.mpr (hown (Nat.succ_pos _))⟩

/-! ### Candidates -/

omit h hd in
theorem candidateRunnable_makes {accepted : Accepted} (haccepted : Settles c accepted)
    (hall : ∀ a < d.plan.roster.size, (accepted.lookup a).isSome = true) {candidate : Candidate}
    (hmembers : ∀ t ∈ candidate.members, t < d.plan.roster.size)
    (hc : d.Scheduling g d.targets c) :
    (candidateRunnable d.plan accepted candidate).Makes c (d.Scheduling g d.targets) ∅ 1 := by
  refine Build.andAll_makes Circuit.staged_lasts hc fun x hx => ?_
  obtain ⟨t, ht, hx⟩ := List.mem_flatMap.mp hx
  simp only [List.mem_cons, List.not_mem_nil, or_false] at hx
  rcases hx with rfl | rfl
  · obtain ⟨action, haction⟩ : ∃ action, d.plan.roster.actions[t]? = some action :=
      ⟨_, Array.getElem?_eq_getElem (hmembers t ht)⟩
    rw [readyOf_eq haction]
    exact (hg.ready t action haction).mono hc.grown
  · obtain ⟨node, hnode⟩ := Option.isSome_iff_exists.mp (hall t (hmembers t ht))
    rw [hnode]
    exact haccepted t node hnode

/-! ### Run bits -/

omit h in
/-- The run wires of transactions rest on nothing, as the grants do. -/
theorem runTransactions_answers {contention : Contention} {grants : List NodeId}
    {later : List NodeId} (hlength : grants.length = contention.size)
    (hgrants : ∀ node ∈ grants, c.Signal ∅ 1 node)
    (hc : d.Scheduling g (Declarations.targetsOf d.plan.roster.transactions ++ later) c) :
    (d.plan.roster.transactions.forM fun (id, transaction) =>
      runTransaction contention grants id transaction).Answers c fun c' _ =>
        d.Scheduling g later c' ∧ ∀ entry ∈ d.plan.roster.transactions,
          ∀ w ∈ entry.2.awaited, c'.Rests ∅ w := by
  refine Build.forM_answers
    (I := fun rest => d.Scheduling g (Declarations.targetsOf rest ++ later))
    (P := fun c' entry => ∀ w ∈ entry.2.awaited, c'.Rests ∅ w)
    (fun _ _ _ hle h w hw => (h w hw).mono hle) ?_ hc
  rintro ⟨t, transaction⟩ hentry rest c' hle hc'
  obtain ⟨haction, htransaction⟩ := Roster.mem_transactions.mp hentry
  have hawaited : transaction.awaited = [transaction.run] :=
    Action.awaited_of_isTransaction htransaction
  rw [Declarations.targetsOf_cons, hawaited] at hc'
  have hgranted : ∀ x ∈ (contention.holdersOf t).map (grants.getD · 0), c'.Signal ∅ 1 x := by
    intro x hx
    obtain ⟨i, hi, rfl⟩ := List.mem_map.mp hx
    have hlt : i < grants.length := hlength ▸ Slate.lt_of_mem_holdersOf hi
    rw [List.getD_eq_getElem grants 0 hlt]
    exact (hgrants _ (List.getElem_mem hlt)).mono hle
  refine Build.bind_answers (Build.orAll_makes Circuit.staged_lasts hc' hgranted)
    fun granted c₁ hle₁ h₁ => ?_
  refine (Build.drive_answers h₁.1 ?_ h₁.2).mono fun c₂ _ _ h₂ => ⟨h₂.1, ?_⟩
  · exact (((hd.actions t transaction haction).mono hg.grown).run.mono h₁.1.grown).width
  · rw [hawaited]
    exact List.forall_mem_singleton.mpr h₂.2

omit h in
/-- A call rests on the run wire of its caller. -/
theorem runCall_makes {targets : List NodeId} {id : CallId} {site : CallSite}
    (hsite : d.plan.calls.sites[id]? = some site) (hc : d.Scheduling g targets c) :
    (runCall d.plan site).Makes c (d.Scheduling g targets) {runOf d.plan site.caller} 1 := by
  obtain ⟨caller, hcaller⟩ := (hd.sites id site hsite).caller
  have hrun : c.Signal {runOf d.plan site.caller} 1 (runOf d.plan site.caller) := by
    refine ⟨?_, .given rfl⟩
    rw [runOf_eq hcaller]
    exact (((hd.actions _ caller hcaller).mono hg.grown).run.mono hc.grown).width
  exact Build.binary_makes Circuit.staged_lasts hc .and hrun
    ((hg.enable id site hsite).mono hc.grown).weaken

omit h in
theorem runCalls_answers {targets : List NodeId} (hc : d.Scheduling g targets c) :
    (d.plan.calls.sites.toList.mapM (runCall d.plan)).Answers c fun c' callRuns =>
      d.Scheduling g targets c' ∧ List.Forall₂
        (fun site node => c'.Signal {runOf d.plan site.caller} 1 node)
          d.plan.calls.sites.toList callRuns := by
  refine Build.mapM_answers (fun _ _ _ _ hle h => h.mono hle) (fun site hsite c' _ hc' => ?_) hc
  obtain ⟨id, hid⟩ := List.mem_iff_getElem?.mp hsite
  exact runCall_makes hd hg (by rw [← Array.getElem?_toList, hid]) hc'

end Acceptance

/-! ### Inputs -/

/-- The input of a method is made whether and however its arguments are combined. -/
theorem methodInput_makes {J : Circuit → Prop} (hJ : Circuit.Lasts J) (hc : J c)
    {given : Set NodeId} {method : Action} {arguments : List Bundle} {runs : List NodeId}
    (hwidths : ∀ field ∈ method.dataIn.fields, Word.ValidWidth field.width)
    (hfolds : method.Folds) (hlength : runs.length = arguments.length)
    (harguments : ∀ b ∈ arguments, b.fields = method.dataIn.fields ∧ b.Signals c given)
    (hruns : ∀ x ∈ runs, c.Signal given 1 x) :
    (methodInput method arguments runs).MakesBundle c J given method.dataIn.fields := by
  unfold methodInput
  cases arguments with
  | nil => exact Build.zeros_makes hJ hc hwidths
  | cons first rest =>
      cases hsome : method.combiner? with
      | some combiner =>
          obtain ⟨shape, hfields, hbuiltin⟩ := hfolds combiner hsome
          rw [← hfields] at harguments ⊢
          have hcombined :
              (combiner (first :: rest) runs).MakesBundle c J given shape.fields := by
            rcases hbuiltin with rfl | rfl
            · exact Build.foldRunning_makes hJ hc (fun _ => rfl) harguments hruns
            · exact Build.foldRunning_makes hJ hc (fun _ => rfl) harguments hruns
          refine Build.bind_answers hcombined fun value c₁ _ h₁ => ?_
          exact Build.bind_answers_of_yields (a := ())
            (Build.ofExcept_yields_iff.mpr ⟨Bundle.expectFields_eq_ok h₁.2.1, rfl⟩)
            (Build.pure_answers h₁)
      | none =>
          cases rest with
          | nil => exact Build.pure_answers ⟨hc, harguments first List.mem_cons_self⟩
          | cons second rest =>
              exact Build.select_makes hJ hc (List.cons_ne_nil _ _) hlength hruns harguments

end Wiring

namespace Declarations

/-- The run wires of the callers of a method. -/
def callersOf (d : Declarations) (m : ActionId) : Set NodeId :=
  {w | ∃ (id : CallId) (site : CallSite), d.plan.calls.sites[id]? = some site ∧ site.callee = m ∧
    w = Wiring.runOf d.plan site.caller}

end Declarations

namespace Wiring

section Methods

variable (h : d.Complete) (hd : d.Orderly) (hg : d.Grounded g)
include h hd hg

/-- A method is connected, and then rests on the run wires of its callers. -/
theorem runMethod_answers {later : List NodeId} {callRuns : List NodeId} {m : ActionId}
    {method : Action} (hmethod : d.plan.roster.actions[m]? = some method)
    (hcallRuns : List.Forall₂ (fun site node => c.Signal {runOf d.plan site.caller} 1 node)
      d.plan.calls.sites.toList callRuns)
    (hc : d.Scheduling g (method.awaited ++ later) c) :
    (runMethod d.plan callRuns m method).Answers c fun c' _ =>
      d.Scheduling g later c' ∧ ∀ w ∈ method.awaited, c'.Rests (d.callersOf m) w := by
  have hequipped := (hd.actions m method hmethod).mono hg.grown
  have hruns : ∀ x ∈ (d.plan.calls.byCallee m).map fun entry => callRuns.getD entry.1 0,
      c.Signal (d.callersOf m) 1 x := by
    intro x hx
    obtain ⟨⟨id, site⟩, hentry, rfl⟩ := List.mem_map.mp hx
    obtain ⟨hsite, hcallee⟩ := Calls.mem_byCallee.mp hentry
    have hrun := forall₂_getD hcallRuns (by rw [Array.getElem?_toList, hsite])
    refine ⟨hrun.width, hrun.rests.trans fun w hw => .given ⟨id, site, hsite, hcallee, hw⟩⟩
  have harguments : ∀ b ∈ (d.plan.calls.byCallee m).map fun entry => entry.2.arguments,
      b.fields = method.dataIn.fields ∧ b.Signals c (d.callersOf m) := by
    intro b hb
    obtain ⟨⟨id, site⟩, hentry, rfl⟩ := List.mem_map.mp hb
    obtain ⟨hsite, rfl⟩ := Calls.mem_byCallee.mp hentry
    obtain ⟨target, htarget, -, hfields⟩ := (hd.sites id site hsite).callee
    rw [hmethod] at htarget
    cases htarget
    exact ⟨hfields, ((hg.arguments id site hsite).mono hc.grown).weaken⟩
  have hwidths : ∀ field ∈ method.dataIn.fields, Word.ValidWidth field.width := by
    intro field hfield
    obtain ⟨⟨_, node⟩, hentry, rfl⟩ := List.mem_map.mp hfield
    obtain ⟨name, driver, hnode⟩ := (hequipped.dataIn _ node hentry).mono hc.grown
    exact hc.wellFormed.valid node _ hnode
  refine Build.bind_answers (Build.orAll_makes Circuit.staged_lasts hc hruns)
    fun run c₁ hle₁ h₁ => ?_
  refine Build.bind_answers (Build.drive_answers h₁.1
    (hequipped.run.mono h₁.1.grown).width h₁.2) fun _ c₂ hle₂ h₂ => ?_
  have hle := Circuit.le_trans hle₁ hle₂
  refine Build.bind_answers (methodInput_makes Circuit.staged_lasts h₂.1 hwidths
    (h.combiners m method hmethod) (by simp) (fun b hb => ⟨(harguments b hb).1,
      (harguments b hb).2.mono hle⟩) fun x hx => (hruns x hx).mono hle) fun value c₃ hle₃ h₃ => ?_
  refine (Build.driveAll_answers h₃.1 (fun field node hentry =>
    ((hequipped.dataIn field node hentry).mono h₃.1.grown).width) h₃.2.1 h₃.2.2).mono
    fun c₄ _ hle₄ h₄ => ⟨h₄.1, ?_⟩
  exact List.forall_mem_cons.mpr ⟨(h₂.2.mono hle₃).mono hle₄, h₄.2⟩

theorem runMethods_answers {callRuns : List NodeId}
    (hcallRuns : List.Forall₂ (fun site node => c.Signal {runOf d.plan site.caller} 1 node)
      d.plan.calls.sites.toList callRuns)
    (hc : d.Scheduling g (Declarations.targetsOf d.plan.roster.methods) c) :
    (d.plan.roster.methods.forM fun (id, method) => runMethod d.plan callRuns id method).Answers c
      fun c' _ => d.Scheduling g [] c' ∧ ∀ entry ∈ d.plan.roster.methods,
        ∀ w ∈ entry.2.awaited, c'.Rests (d.callersOf entry.1) w := by
  refine Build.forM_answers
    (I := fun rest => d.Scheduling g (Declarations.targetsOf rest))
    (P := fun c' entry => ∀ w ∈ entry.2.awaited, c'.Rests (d.callersOf entry.1) w)
    (fun _ _ _ hle h w hw => (h w hw).mono hle) ?_ hc
  rintro ⟨m, method⟩ hentry rest c' hle hc'
  rw [Declarations.targetsOf_cons] at hc'
  exact runMethod_answers h hd hg (Roster.mem_methods.mp hentry).1
    (hcallRuns.imp fun _ _ hrun => hrun.mono hle) hc'

end Methods

/-! ### Everything rests on nothing -/

/-- Down the calls, the wires that were driven rest on nothing: a transaction's because the grants
do, and a method's because those of its callers do. -/
theorem rests_of_awaited (hd : d.Orderly) {reach : Reach} (hreach : Reach.Followed d.plan reach)
    (htransactions : ∀ entry ∈ d.plan.roster.transactions, ∀ w ∈ entry.2.awaited, c.Rests ∅ w)
    (hmethods : ∀ entry ∈ d.plan.roster.methods, ∀ w ∈ entry.2.awaited,
      c.Rests (d.callersOf entry.1) w) : ∀ w ∈ d.awaited, c.Rests ∅ w := by
  -- the induction is on how long chains that lead to the action can be
  have key : ∀ n a, (∀ b ids, d.plan.calls.Leads b ids a → ids.length ≤ n) → ∀ action,
      d.plan.roster.actions[a]? = some action → ∀ w ∈ action.awaited, c.Rests ∅ w := by
    intro n
    induction n using Nat.strong_induction_on with
    | _ n ih =>
        intro a hchains action haction w hw
        rcases action.isTransaction_or_isMethod with htransaction | hmethod
        · exact htransactions _ (Roster.mem_transactions.mpr ⟨haction, htransaction⟩) w hw
        · refine (hmethods _ (Roster.mem_methods.mpr ⟨haction, hmethod⟩) w hw).trans ?_
          rintro _ ⟨id, site, hsite, rfl, rfl⟩
          obtain ⟨caller, hcaller⟩ := (hd.sites id site hsite).caller
          rw [runOf_eq hcaller]
          have hpositive : 0 < n := hchains _ _ (.last hsite)
          refine ih (n - 1) (Nat.sub_lt hpositive Nat.one_pos) site.caller
            (fun b ids hleads => ?_) caller hcaller _ List.mem_cons_self
          have hlength := hchains b _ (hleads.append (.last hsite))
          rw [List.length_append, List.length_singleton] at hlength
          exact Nat.le_sub_one_of_lt hlength
  rintro w ⟨a, action, haction, hw⟩
  exact key _ a (fun _ _ hleads => hreach.bounded hleads) action haction w hw

/-- What connecting a design leaves: a circuit all of whose nodes rest on nothing, and a node for
every candidate and for every call. -/
structure Connected (d : Declarations) (contention : Contention) (c : Circuit) (wiring : Wiring) :
    Prop where
  wellFormed : c.WellFormed
  rests : ∀ id < c.size, c.Rests ∅ id
  runnable : wiring.runnable.length = contention.size
  grants : wiring.grants.length = contention.size
  callRuns : wiring.callRuns.length = d.plan.calls.size

/-- **A complete design whose contention can be worked out is connected, and closes no loop.** -/
theorem connect_answers (h : d.Complete) (hd : d.Orderly) (hg : d.Grounded g) {reach : Reach}
    (hreach : Reach.Followed d.plan reach) {contention : Contention}
    (hworked : Contention.WorkedOut reach contention) :
    (connect d.plan contention .eager).Answers g (Connected d contention) := by
  refine Build.bind_answers (acceptAll_answers h hd hg hg.staged) fun accepted c₁ hle₁ h₁ => ?_
  obtain ⟨hc₁, haccepted, hall⟩ := h₁
  refine Build.bind_answers (Build.mapM_makes hc₁ fun candidate hcandidate c' hle hc' =>
    candidateRunnable_makes hg (haccepted.mono hle) hall
      (hreach.plan_eq ▸ members_lt hworked hcandidate) hc') fun runnable c₂ hle₂ h₂ => ?_
  obtain ⟨hc₂, hrunnable, hbits⟩ := h₂
  refine Build.bind_answers (Policy.eagerGrants_answers hworked Circuit.staged_lasts hc₂ hrunnable
    hbits) fun grants c₃ hle₃ h₃ => ?_
  obtain ⟨hc₃, hgrants, hgranted⟩ := h₃
  refine Build.bind_answers (runTransactions_answers hd hg hgrants hgranted hc₃)
    fun _ c₄ hle₄ h₄ => ?_
  refine Build.bind_answers (runCalls_answers hd hg h₄.1) fun callRuns c₅ hle₅ h₅ => ?_
  refine Build.bind_answers (runMethods_answers h hd hg h₅.2 h₅.1) fun _ c₆ hle₆ h₆ => ?_
  have hawaited := rests_of_awaited hd hreach
    (fun entry hentry w hw => ((h₄.2 entry hentry w hw).mono hle₅).mono hle₆) h₆.2
  refine Build.pure_answers ⟨h₆.1.wellFormed, fun id hid => (h₆.1.rests id hid).trans hawaited,
    hrunnable, hgrants, ?_⟩
  rw [← h₅.2.length_eq, Array.length_toList]
  rfl

end Wiring

end Interlock
