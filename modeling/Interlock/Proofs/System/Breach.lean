/-
What a cycle breaks of the promises of a schedule.

The promises are stated here of the actions that run, the calls that happen and the candidates that
are granted; how a check looks these up in its tables is left behind.  A check lists a breach of
each promise that is broken and nothing else, one promise after the other.
-/
import Interlock.System.Audit
import Interlock.Proofs.System.Preference

namespace Interlock

/-! ### The promises -/

namespace System

variable (system : System) (valuation : Valuation)

/-- The call is one of the method's, and happens in the cycle. -/
def HappensAt (m : ActionId) (id : CallId) : Prop :=
  (∃ site, system.calls.sites[id]? = some site ∧ site.callee = m) ∧ system.Happens valuation id

/-- The two calls of the method are the first two that happen. -/
structure FirstTwo (m : ActionId) (first second : CallId) : Prop where
  happens : system.HappensAt valuation m first
  happens' : system.HappensAt valuation m second
  lt : first < second
  front : ∀ id, system.HappensAt valuation m id → id = first ∨ second ≤ id

/-- The words that a method without a combiner is promised, where anything is: the arguments of its
only call site; of several, those of the one that happens, or zeros if none does. -/
inductive Promises (m : ActionId) (method : Action) : List Nat → Prop
  | only {call : CallId × CallSite} : system.calls.byCallee m = [call] →
      Promises m method (valuation.fields call.2.arguments)
  | idle : 2 ≤ (system.calls.byCallee m).length →
      (∀ call ∈ system.calls.byCallee m, ¬ system.Happens valuation call.1) →
      Promises m method (method.dataIn.nodes.map fun _ => 0)
  | running {call : CallId × CallSite} : 2 ≤ (system.calls.byCallee m).length →
      call ∈ system.calls.byCallee m → system.Happens valuation call.1 →
      (∀ other ∈ system.calls.byCallee m, system.Happens valuation other.1 → other = call) →
      Promises m method (valuation.fields call.2.arguments)

/-- A promise is broken in the cycle. -/
inductive Breaks : BreachKind → Prop
  /-- An action runs and is not ready. -/
  | unready {a : ActionId} {action : Action} : system.roster.actions[a]? = some action →
      valuation.bit action.run = true → valuation.bit action.ready = false →
      Breaks (.runWithoutReady action.qualifiedName)
  /-- Both ends of a declared conflict run. -/
  | conflicting {relation : Relation} : relation ∈ system.plan.couplings.relations →
      relation.kind = .conflict → system.Runs valuation relation.start →
      system.Runs valuation relation.finish →
      Breaks (.conflictingRuns (system.name relation.start) (system.name relation.finish))
  /-- Two calls of an exclusive method happen; the first two are named. -/
  | crowded {m : ActionId} {method : Action} {first second : CallId} :
      (m, method) ∈ system.roster.methods → method.isNonexclusive = false →
      system.FirstTwo valuation m first second →
      Breaks (.conflictingRuns (Watch.siteName method first) (Watch.siteName method second))
  /-- Two alternatives run. -/
  | dependent {x y : ActionId} : (x, y) ∈ system.contention.independent →
      system.Runs valuation x → system.Runs valuation y →
      Breaks (.independenceViolated (system.name x) (system.name y))
  /-- A member of a granted candidate does not run. -/
  | partly {c : Nat} {candidate : Candidate} {member : ActionId} :
      system.contention.candidates[c]? = some candidate → system.Granted valuation c →
      member ∈ candidate.members → ¬ system.Runs valuation member →
      Breaks (.brokenSimultaneity candidate.name)
  /-- Two candidates in conflict are granted. -/
  | clashing {c c' : Nat} {candidate : Candidate} :
      system.contention.candidates[c]? = some candidate → c < c' → c' < system.contention.size →
      system.contention.inConflict c c' = true → system.Granted valuation c →
      system.Granted valuation c' →
      Breaks (.conflictingRuns candidate.name (system.contention.name c'))
  /-- A candidate could run, no rival is granted, and neither is the candidate. -/
  | idle {c : Nat} {candidate : Candidate} :
      system.contention.candidates[c]? = some candidate → ¬ system.Granted valuation c →
      system.Runnable valuation c →
      (∀ c' < system.contention.size, system.contention.inConflict c c' = true →
        ¬ system.Granted valuation c') →
      Breaks (.notMaximal candidate.name)
  /-- A transaction runs and no candidate that holds it is granted. -/
  | uncovered {t : ActionId} {transaction : Action} :
      (t, transaction) ∈ system.roster.transactions → valuation.bit transaction.run = true →
      (∀ c ∈ system.contention.holdersOf t, ¬ system.Granted valuation c) →
      Breaks (.brokenSimultaneity transaction.qualifiedName)
  /-- A method sees other words than it is promised. -/
  | misled {m : ActionId} {method : Action} {words : List Nat} :
      (m, method) ∈ system.roster.methods → method.combiner? = none → method.dataIn.fields ≠ [] →
      system.Promises valuation m method words → valuation.fields method.dataIn ≠ words →
      Breaks (.combinerMismatch method.qualifiedName)

end System

/-! ### Lists -/

/-- The first two of ascending numbers are in front of all others. -/
theorem exists_cons_cons_iff {l : List Nat} (h : l.Pairwise (· < ·)) {a b : Nat} :
    (∃ rest, l = a :: b :: rest) ↔ a ∈ l ∧ b ∈ l ∧ a < b ∧ ∀ c ∈ l, c = a ∨ b ≤ c := by
  constructor
  · rintro ⟨rest, rfl⟩
    simp only [List.pairwise_cons, List.mem_cons, forall_eq_or_imp] at h
    refine ⟨by simp, by simp, h.1.1, fun c hc => ?_⟩
    rcases List.mem_cons.mp hc with rfl | hc
    · exact .inl rfl
    · rcases List.mem_cons.mp hc with rfl | hc
      · exact .inr (Nat.le_refl _)
      · exact .inr (Nat.le_of_lt (h.2.1 c hc))
  · rintro ⟨ha, hb, hlt, hrest⟩
    match l, h with
    | [], _ => cases ha
    | [x], _ =>
        simp only [List.mem_singleton] at ha hb
        omega
    | x :: y :: rest, h =>
        simp only [List.pairwise_cons, List.mem_cons, forall_eq_or_imp] at h ha hb hrest
        have hfirst : x = a := by
          rcases ha with rfl | rfl | ha
          · rfl
          · have := hrest.1
            omega
          · have := hrest.1
            have := h.1.2 a ha
            omega
        have hsecond : y = b := by
          rcases hb with rfl | rfl | hb
          · omega
          · rfl
          · have := hrest.2.1
            have := h.2.1 b hb
            omega
        exact ⟨rest, by rw [hfirst, hsecond]⟩

/-- One element of a list without repeats is left if it is the only one that passes a test. -/
theorem filter_eq_singleton_iff {α : Type} {l : List α} (hnodup : l.Nodup) {p : α → Bool} {a : α} :
    l.filter p = [a] ↔ a ∈ l ∧ p a = true ∧ ∀ b ∈ l, p b = true → b = a := by
  constructor
  · intro h
    obtain ⟨ha, hp⟩ := List.mem_filter.mp (h ▸ List.mem_singleton_self a)
    refine ⟨ha, hp, fun b hb hpb => ?_⟩
    exact List.mem_singleton.mp (h ▸ List.mem_filter.mpr ⟨hb, hpb⟩)
  · rintro ⟨ha, hp, hunique⟩
    refine List.perm_singleton.mp ((List.perm_ext_iff_of_nodup (hnodup.filter p)
      (List.nodup_singleton a)).mpr fun b => ?_)
    rw [List.mem_filter, List.mem_singleton]
    constructor
    · exact fun hb => hunique b hb.1 hb.2
    · rintro rfl
      exact ⟨ha, hp⟩

/-! ### What the tables of a check say -/

namespace Calls

variable {calls : Calls}

theorem byCallee_pairwise (m : ActionId) :
    (calls.byCallee m).Pairwise fun entry other => entry.1 < other.1 := by
  refine List.Pairwise.sublist List.filter_sublist ?_
  unfold entries
  rw [List.pairwise_map, ← List.pairwise_map (f := Prod.snd) (R := (· < ·)), List.zipIdx_map_snd]
  exact List.pairwise_lt_range'

end Calls

namespace Watch

variable {system : System} {valuation : Valuation} {kind : BreachKind}

theorem runs_eq_true_iff {a : ActionId} :
    (ofSystem system).runs valuation a = true ↔ system.Runs valuation a := by
  unfold runs System.Runs
  show (system.roster.actions[a]?.map fun action => valuation.bit action.run).getD false = true ↔ _
  cases system.roster.actions[a]? <;> simp

theorem granted_eq_true_iff {c : Nat} :
    (ofSystem system).granted valuation c = true ↔ system.Granted valuation c := by
  unfold granted System.Granted
  show ((system.wiring.grants.toArray[c]?.map valuation.bit).getD false) = true ↔ _
  rw [List.getElem?_toArray]
  cases system.wiring.grants[c]? <;> simp

theorem couldRun_eq_true_iff {c : Nat} :
    (ofSystem system).couldRun valuation c = true ↔ system.Runnable valuation c := by
  unfold couldRun System.Runnable
  show ((system.wiring.runnable.toArray[c]?.map valuation.bit).getD false) = true ↔ _
  rw [List.getElem?_toArray]
  cases system.wiring.runnable[c]? <;> simp

theorem getD_rivals {c : Nat} (h : c < system.contention.size) :
    (ofSystem system).rivals.getD c [] = system.contention.rivals c := by
  show ((Array.range system.contention.size).map system.contention.rivals).getD c [] = _
  simp [Array.getD, h]

theorem getD_holders {a : ActionId} (h : a < system.roster.size) :
    (ofSystem system).holders.getD a [] = system.contention.holdersOf a := by
  show ((Array.range system.roster.size).map system.contention.holdersOf).getD a [] = _
  simp [Array.getD, h]

/-- A call site of a method with the node that says whether the call happens. -/
def entryOf (system : System) (call : CallId × CallSite) : CallId × CallSite × NodeId :=
  (call.1, call.2, system.wiring.callRuns.getD call.1 0)

theorem sitesOf_eq (m : ActionId) :
    (ofSystem system).sitesOf m = (system.calls.byCallee m).map (entryOf system) :=
  List.filter_map

theorem runningSitesOf_eq (m : ActionId) : (ofSystem system).runningSitesOf valuation m =
    ((system.calls.byCallee m).filter fun call =>
      valuation.bit (system.wiring.callRuns.getD call.1 0)).map (entryOf system) := by
  unfold runningSitesOf
  rw [sitesOf_eq]
  exact List.filter_map

/-! ### Every promise -/

theorem mem_unready_iff : kind ∈ (ofSystem system).unready valuation ↔
    ∃ (a : ActionId) (action : Action), system.roster.actions[a]? = some action ∧
      valuation.bit action.run = true ∧ valuation.bit action.ready = false ∧
      .runWithoutReady action.qualifiedName = kind := by
  unfold unready
  rw [List.mem_filterMap]
  constructor
  · rintro ⟨action, hmem, hkind⟩
    obtain ⟨a, haction⟩ := Array.mem_iff_getElem?.mp (Array.mem_toList_iff.mp hmem)
    split at hkind
    · rename_i hbits
      simp only [Bool.and_eq_true, Bool.not_eq_true'] at hbits
      exact ⟨a, action, haction, hbits.1, hbits.2, Option.some.inj hkind⟩
    · cases hkind
  · rintro ⟨a, action, haction, hrun, hready, rfl⟩
    refine ⟨action, Array.mem_toList_iff.mpr (Array.mem_of_getElem? haction), ?_⟩
    simp [hrun, hready]

theorem mem_conflicts_iff : kind ∈ (ofSystem system).conflicts valuation ↔
    ∃ relation ∈ system.plan.couplings.relations, relation.kind = .conflict ∧
      system.Runs valuation relation.start ∧ system.Runs valuation relation.finish ∧
      .conflictingRuns (system.name relation.start) (system.name relation.finish) = kind := by
  unfold conflicts
  rw [List.mem_filterMap]
  refine exists_congr fun relation => and_congr_right fun _ => ?_
  simp only [← runs_eq_true_iff, Relation.isConflict, Option.ite_none_right_eq_some,
    Bool.and_eq_true, beq_iff_eq, Option.some.injEq, and_assoc]
  rfl

theorem mem_runningSitesOf_iff {m : ActionId} {id : CallId} :
    id ∈ ((ofSystem system).runningSitesOf valuation m).map (·.1) ↔
      system.HappensAt valuation m id := by
  rw [runningSitesOf_eq, List.map_map]
  unfold System.HappensAt System.Happens
  simp only [List.mem_map, List.mem_filter, Prod.exists, Calls.mem_byCallee, Function.comp_apply,
    entryOf, exists_and_right, exists_eq_right]

theorem runningSitesOf_pairwise (m : ActionId) :
    (((ofSystem system).runningSitesOf valuation m).map (·.1)).Pairwise (· < ·) := by
  rw [runningSitesOf_eq, List.map_map, List.pairwise_map]
  exact (Calls.byCallee_pairwise m).sublist List.filter_sublist

theorem firstTwo_iff {m : ActionId} {first second : CallId} :
    (∃ rest, ((ofSystem system).runningSitesOf valuation m).map (·.1) = first :: second :: rest) ↔
      system.FirstTwo valuation m first second := by
  rw [exists_cons_cons_iff (runningSitesOf_pairwise m)]
  simp only [mem_runningSitesOf_iff]
  exact ⟨fun ⟨hfirst, hsecond, hlt, hfront⟩ => ⟨hfirst, hsecond, hlt, hfront⟩,
    fun ⟨hfirst, hsecond, hlt, hfront⟩ => ⟨hfirst, hsecond, hlt, hfront⟩⟩

theorem mem_crowded_iff : kind ∈ (ofSystem system).crowded valuation ↔
    ∃ (m : ActionId) (method : Action), (m, method) ∈ system.roster.methods ∧
      method.isNonexclusive = false ∧ ∃ first second, system.FirstTwo valuation m first second ∧
        .conflictingRuns (siteName method first) (siteName method second) = kind := by
  unfold crowded
  rw [List.mem_filterMap, Prod.exists]
  refine exists_congr fun m => exists_congr fun method => and_congr_right fun _ => ?_
  dsimp only
  cases method.isNonexclusive with
  | true => simp
  | false =>
      simp only [Bool.false_eq_true, if_false, true_and, ← firstTwo_iff]
      rcases (ofSystem system).runningSitesOf valuation m with _ | ⟨one, _ | ⟨two, rest⟩⟩ <;> simp

theorem mem_dependent_iff : kind ∈ (ofSystem system).dependent valuation ↔
    ∃ x y, (x, y) ∈ system.contention.independent ∧ system.Runs valuation x ∧
      system.Runs valuation y ∧ .independenceViolated (system.name x) (system.name y) = kind := by
  unfold dependent
  rw [List.mem_filterMap, Prod.exists]
  refine exists_congr fun x => exists_congr fun y => and_congr_right fun _ => ?_
  simp only [← runs_eq_true_iff, Option.ite_none_right_eq_some, Bool.and_eq_true,
    Option.some.injEq, and_assoc]
  rfl

theorem mem_grantedBreaches_iff {c : Nat} (hc : c < system.contention.size)
    {candidate : Candidate} :
    kind ∈ (ofSystem system).grantedBreaches valuation c candidate ↔
      (∃ member ∈ candidate.members, ¬ system.Runs valuation member ∧
        .brokenSimultaneity candidate.name = kind) ∨
      ∃ c', c < c' ∧ c' < system.contention.size ∧ system.contention.inConflict c c' = true ∧
        system.Granted valuation c' ∧
        .conflictingRuns candidate.name (system.contention.name c') = kind := by
  unfold grantedBreaches
  rw [List.mem_append, getD_rivals hc]
  refine or_congr ?_ ?_
  · simp only [← runs_eq_true_iff, List.mem_ite_nil_right, List.any_eq_true, Bool.not_eq_true',
      List.mem_singleton, Bool.not_eq_true]
    constructor
    · rintro ⟨⟨member, hmember, hruns⟩, rfl⟩
      exact ⟨member, hmember, hruns, rfl⟩
    · rintro ⟨member, hmember, hruns, rfl⟩
      exact ⟨⟨member, hmember, hruns⟩, rfl⟩
  · simp only [List.mem_map, List.mem_filter, Policy.mem_rivals, Bool.and_eq_true,
      decide_eq_true_eq, granted_eq_true_iff]
    constructor
    · rintro ⟨c', ⟨⟨hsize, hconflict⟩, hlt, hgranted⟩, hkind⟩
      exact ⟨c', hlt, hsize, hconflict, hgranted, hkind⟩
    · rintro ⟨c', hlt, hsize, hconflict, hgranted, hkind⟩
      exact ⟨c', ⟨⟨hsize, hconflict⟩, hlt, hgranted⟩, hkind⟩

theorem mem_idleBreaches_iff {c : Nat} (hc : c < system.contention.size)
    {candidate : Candidate} :
    kind ∈ (ofSystem system).idleBreaches valuation c candidate ↔
      system.Runnable valuation c ∧ (∀ c' < system.contention.size,
        system.contention.inConflict c c' = true → ¬ system.Granted valuation c') ∧
        .notMaximal candidate.name = kind := by
  unfold idleBreaches
  rw [getD_rivals hc]
  simp only [← granted_eq_true_iff, ← couldRun_eq_true_iff, List.mem_ite_nil_right,
    Bool.and_eq_true, Bool.not_eq_true', List.any_eq_false, Policy.mem_rivals, and_imp,
    List.mem_singleton, and_assoc, eq_comm (a := kind)]

theorem mem_candidates_iff : kind ∈ (ofSystem system).candidates valuation ↔
    ∃ (c : Nat) (candidate : Candidate), system.contention.candidates[c]? = some candidate ∧
      (system.Granted valuation c ∧
          kind ∈ (ofSystem system).grantedBreaches valuation c candidate ∨
        ¬ system.Granted valuation c ∧
          kind ∈ (ofSystem system).idleBreaches valuation c candidate) := by
  unfold candidates
  rw [List.mem_flatMap, Prod.exists, exists_comm]
  refine exists_congr fun c => exists_congr fun candidate => ?_
  rw [List.mem_zipIdx_iff_getElem?]
  refine and_congr_right fun _ => ?_
  dsimp only
  simp only [← granted_eq_true_iff]
  split <;> rename_i hgranted <;> simp [hgranted]

theorem mem_uncovered_iff : kind ∈ (ofSystem system).uncovered valuation ↔
    ∃ (t : ActionId) (transaction : Action), (t, transaction) ∈ system.roster.transactions ∧
      valuation.bit transaction.run = true ∧
      (∀ c ∈ system.contention.holdersOf t, ¬ system.Granted valuation c) ∧
      .brokenSimultaneity transaction.qualifiedName = kind := by
  unfold uncovered
  rw [List.mem_filterMap, Prod.exists]
  refine exists_congr fun t => exists_congr fun transaction => and_congr_right fun ht => ?_
  have hholders : (ofSystem system).holders.getD t [] = system.contention.holdersOf t :=
    getD_holders (Roster.lt_of_mem_transactions ht)
  dsimp only
  rw [hholders]
  simp only [← granted_eq_true_iff, Option.ite_none_right_eq_some, Bool.and_eq_true,
    Bool.not_eq_true', List.any_eq_false, Option.some.injEq, and_assoc]

theorem expected?_eq_some_iff {m : ActionId} {method : Action} {words : List Nat} :
    (ofSystem system).expected? valuation m method = some words ↔
      system.Promises valuation m method words := by
  have hnodup : (system.calls.byCallee m).Nodup :=
    (Calls.byCallee_pairwise m).imp fun hlt heq => absurd (congrArg Prod.fst heq) (Nat.ne_of_lt hlt)
  unfold expected?
  rw [sitesOf_eq]
  rcases hcalls : system.calls.byCallee m with _ | ⟨call, _ | ⟨other, rest⟩⟩
  · -- no call site: nothing is promised
    refine ⟨fun h => (nomatch h), fun h => ?_⟩
    cases h <;> simp_all
  · -- one call site
    constructor
    · intro h
      cases h
      exact .only hcalls
    · intro h
      cases h with
      | only hcall =>
          obtain rfl := List.singleton_inj.mp (hcalls.symm.trans hcall)
          rfl
      | idle hseveral => simp [hcalls] at hseveral
      | running hseveral => simp [hcalls] at hseveral
  · -- several: those that happen decide
    have hseveral : 2 ≤ (system.calls.byCallee m).length := by simp [hcalls]
    have hnotOne : ∀ one, system.calls.byCallee m ≠ [one] := by simp [hcalls]
    have hsites := @runningSitesOf_eq system valuation m
    rcases hrunning : (system.calls.byCallee m).filter fun call =>
      valuation.bit (system.wiring.callRuns.getD call.1 0) with _ | ⟨one, _ | ⟨two, others⟩⟩
    · have hnone : ∀ call ∈ system.calls.byCallee m, ¬ system.Happens valuation call.1 :=
        List.filter_eq_nil_iff.mp hrunning
      rw [hrunning] at hsites
      simp only [List.map_cons, hsites, List.map_nil]
      constructor
      · intro h
        cases h
        exact .idle hseveral hnone
      · intro h
        cases h with
        | only hcall => exact absurd hcall (hnotOne _)
        | idle => rfl
        | running _ hmem hhappens => exact absurd hhappens (hnone _ hmem)
    · obtain ⟨hone, hhappens, hunique⟩ := (filter_eq_singleton_iff hnodup).mp hrunning
      rw [hrunning] at hsites
      simp only [List.map_cons, hsites, List.map_nil]
      constructor
      · intro h
        cases h
        exact .running hseveral hone hhappens hunique
      · intro h
        cases h with
        | only hcall => exact absurd hcall (hnotOne _)
        | idle _ hnone => exact absurd hhappens (hnone one hone)
        | running _ hmem hhappens' _ =>
            rw [hunique _ hmem hhappens']
            rfl
    · have hboth : ∀ call ∈ one :: two :: others,
          call ∈ system.calls.byCallee m ∧ system.Happens valuation call.1 :=
        fun call hcall => List.mem_filter.mp (hrunning ▸ hcall)
      have hne : one ≠ two := fun heq =>
        (List.nodup_cons.mp (hrunning ▸ hnodup.filter _)).1 (heq ▸ List.mem_cons_self)
      obtain ⟨hone, hfirst⟩ := hboth one (by simp)
      obtain ⟨htwo, hsecond⟩ := hboth two (by simp)
      rw [hrunning] at hsites
      simp only [List.map_cons, hsites]
      refine ⟨fun h => (nomatch h), fun h => ?_⟩
      cases h with
      | only hcall => exact absurd hcall (hnotOne _)
      | idle _ hnone => exact absurd hfirst (hnone one hone)
      | running _ _ _ hunique =>
          exact absurd ((hunique one hone hfirst).trans (hunique two htwo hsecond).symm) hne

theorem mem_misled_iff : kind ∈ (ofSystem system).misled valuation ↔
    ∃ (m : ActionId) (method : Action), (m, method) ∈ system.roster.methods ∧
      method.combiner? = none ∧ method.dataIn.fields ≠ [] ∧ ∃ words,
        system.Promises valuation m method words ∧ valuation.fields method.dataIn ≠ words ∧
          .combinerMismatch method.qualifiedName = kind := by
  have hisEmpty : ∀ bundle : Bundle, bundle.isEmpty = true ↔ bundle.fields = [] := by
    intro bundle
    simp [Bundle.isEmpty, Bundle.fields]
  unfold misled
  rw [List.mem_filterMap, Prod.exists]
  refine exists_congr fun m => exists_congr fun method => and_congr_right fun _ => ?_
  dsimp only
  simp only [← expected?_eq_some_iff]
  split
  · rename_i hskip
    constructor
    · intro h
      cases h
    · rintro ⟨hnone, hfields, -⟩
      simp [hnone, hisEmpty, hfields] at hskip
  · rename_i hchecked
    simp only [Bool.or_eq_true, not_or, Option.not_isSome_iff_eq_none, hisEmpty] at hchecked
    simp only [hchecked.1, hchecked.2, ne_eq, not_false_eq_true, true_and]
    cases (ofSystem system).expected? valuation m method with
    | none => simp
    | some words => by_cases hwords : valuation.fields method.dataIn = words <;> simp [hwords]

/-- **A check finds the promises that are broken, and nothing else.** -/
theorem mem_breaches_iff : kind ∈ (ofSystem system).breaches valuation ↔
    system.Breaks valuation kind := by
  unfold breaches
  simp only [List.mem_append, mem_unready_iff, mem_conflicts_iff, mem_crowded_iff,
    mem_dependent_iff, mem_candidates_iff, mem_uncovered_iff, mem_misled_iff]
  constructor
  · rintro ((((((h | h) | h) | h) | h) | h) | h)
    · obtain ⟨a, action, haction, hrun, hready, rfl⟩ := h
      exact .unready haction hrun hready
    · obtain ⟨relation, hrelation, hkind, hstart, hfinish, rfl⟩ := h
      exact .conflicting hrelation hkind hstart hfinish
    · obtain ⟨m, method, hm, hexclusive, first, second, htwo, rfl⟩ := h
      exact .crowded hm hexclusive htwo
    · obtain ⟨x, y, hxy, hx, hy, rfl⟩ := h
      exact .dependent hxy hx hy
    · obtain ⟨c, candidate, hcandidate, h⟩ := h
      have hc : c < system.contention.size := (List.getElem?_eq_some_iff.mp hcandidate).1
      rw [mem_grantedBreaches_iff hc, mem_idleBreaches_iff hc] at h
      rcases h with ⟨hgranted, h | h⟩ | ⟨hidle, h⟩
      · obtain ⟨member, hmember, hruns, rfl⟩ := h
        exact .partly hcandidate hgranted hmember hruns
      · obtain ⟨c', hlt, hc', hconflict, hgranted', rfl⟩ := h
        exact .clashing hcandidate hlt hc' hconflict hgranted hgranted'
      · obtain ⟨hrunnable, hrivals, rfl⟩ := h
        exact .idle hcandidate hidle hrunnable hrivals
    · obtain ⟨t, transaction, ht, hrun, hholders, rfl⟩ := h
      exact .uncovered ht hrun hholders
    · obtain ⟨m, method, hm, hcombiner, hfields, words, hpromises, hne, rfl⟩ := h
      exact .misled hm hcombiner hfields hpromises hne
  · have hlt : ∀ {c : Nat} {candidate : Candidate},
        system.contention.candidates[c]? = some candidate → c < system.contention.size :=
      fun h => (List.getElem?_eq_some_iff.mp h).1
    intro h
    cases h with
    | unready haction hrun hready =>
        exact .inl (.inl (.inl (.inl (.inl (.inl ⟨_, _, haction, hrun, hready, rfl⟩)))))
    | conflicting hrelation hkind hstart hfinish =>
        exact .inl (.inl (.inl (.inl (.inl (.inr ⟨_, hrelation, hkind, hstart, hfinish, rfl⟩)))))
    | crowded hm hexclusive htwo =>
        exact .inl (.inl (.inl (.inl (.inr ⟨_, _, hm, hexclusive, _, _, htwo, rfl⟩))))
    | dependent hxy hx hy => exact .inl (.inl (.inl (.inr ⟨_, _, hxy, hx, hy, rfl⟩)))
    | partly hcandidate hgranted hmember hruns =>
        refine .inl (.inl (.inr ⟨_, _, hcandidate, .inl ⟨hgranted, ?_⟩⟩))
        exact (mem_grantedBreaches_iff (hlt hcandidate)).mpr (.inl ⟨_, hmember, hruns, rfl⟩)
    | clashing hcandidate hless hsize hconflict hgranted hgranted' =>
        refine .inl (.inl (.inr ⟨_, _, hcandidate, .inl ⟨hgranted, ?_⟩⟩))
        exact (mem_grantedBreaches_iff (hlt hcandidate)).mpr
          (.inr ⟨_, hless, hsize, hconflict, hgranted', rfl⟩)
    | idle hcandidate hidle hrunnable hrivals =>
        refine .inl (.inl (.inr ⟨_, _, hcandidate, .inr ⟨hidle, ?_⟩⟩))
        exact (mem_idleBreaches_iff (hlt hcandidate)).mpr ⟨hrunnable, hrivals, rfl⟩
    | uncovered ht hrun hholders => exact .inl (.inr ⟨_, _, ht, hrun, hholders, rfl⟩)
    | misled hm hcombiner hfields hpromises hne =>
        exact .inr ⟨_, _, hm, hcombiner, hfields, _, hpromises, hne, rfl⟩

end Watch

end Interlock
