/-
Warnings are exactly what is odd about the declared pairs.

Whether an action is silent is asked in two ways: whether it stands for a transaction, and whether
a candidate takes part in it.  Since every transaction is in a candidate, both ask whether calls
lead to the action from a transaction.  So the passes over ties and over relations agree, and what
they remark is one set: the pairs with a silent action that are no alternatives, and the pairs
across outermost blocks that nobody acknowledged.
-/
import Interlock.Proofs.Anchored
import Interlock.Proofs.Contention.Clashes
import Interlock.Proofs.Hierarchy

namespace Interlock

/-! ### The order of warnings -/

theorem textLt_ranking : Ranking textLt := by
  refine keyLt_ranking (listLt_ranking natLt_ranking) fun a b h => ?_
  have hchars : Function.Injective Char.toNat := fun _ _ => Char.toNat_inj.mp
  exact String.toList_inj.mp (List.map_injective_iff.mpr hchars h)

theorem Warning.key_injective (w w' : Warning) (h : w.key = w'.key) : w = w' := by
  cases w <;> cases w' <;> simp_all [Warning.key]

theorem Warning.lt_ranking : Ranking Warning.lt :=
  keyLt_ranking (pairLt_ranking natLt_ranking (listLt_ranking textLt_ranking)) key_injective

/-! ### What is odd about a pair -/

/-- No two actions share a qualified name. -/
def Roster.Distinct (roster : Roster) : Prop :=
  (roster.actions.toList.map (·.qualifiedName)).Nodup

namespace Plan

variable {plan : Plan} {a b : ActionId}

/-- A conflict, a preference or a tie was declared from one action to the other. -/
def Couples (plan : Plan) (a b : ActionId) : Prop :=
  (∃ relation ∈ plan.couplings.relations, relation.start = a ∧ relation.finish = b) ∨
    (a, b) ∈ plan.couplings.simultaneous

/-- No transaction is the action, and none leads to it by calls. -/
def Silent (plan : Plan) (a : ActionId) : Prop :=
  ∀ t ∈ plan.roster.transactions.map Prod.fst, t ≠ a ∧ ∀ ids, ¬ plan.calls.Leads t ids a

/-- The pair are no alternatives, and this is the first silent one of them. -/
def Idles (plan : Plan) (a b silent : ActionId) : Prop :=
  ordered a b ∉ plan.couplings.independent ∧
    (plan.Silent a ∧ a = silent ∨ ¬ plan.Silent a ∧ plan.Silent b ∧ b = silent)

theorem Idles.silent {silent : ActionId} (h : plan.Idles a b silent) : plan.Silent silent := by
  obtain ⟨-, ⟨hsilent, rfl⟩ | ⟨-, hsilent, rfl⟩⟩ := h
  · exact hsilent
  · exact hsilent

theorem Idles.lt {silent size : ActionId} (h : plan.Idles a b silent) (ha : a < size)
    (hb : b < size) : silent < size := by
  obtain ⟨-, ⟨-, rfl⟩ | ⟨-, -, rfl⟩⟩ := h
  · exact ha
  · exact hb

/-- The action has an owner, and this is the outermost block around it. -/
def Home (plan : Plan) (a : ActionId) (root : BlockId) : Prop :=
  ∃ action owner, plan.roster.actions[a]? = some action ∧ action.owner = some owner ∧
    plan.blocks.root owner = .ok root

/-- Nobody acknowledged the pair, and the outermost blocks around the two differ. -/
def Crosses (plan : Plan) (a b : ActionId) (root root' : BlockId) : Prop :=
  ordered a b ∉ plan.couplings.acknowledged ∧ plan.Home a root ∧ plan.Home b root' ∧ root ≠ root'

theorem Home.exists_path {root : BlockId} (h : plan.Home a root) :
    ∃ path, plan.blocks.path root = .ok path := by
  obtain ⟨action, owner, -, -, hroot⟩ := h
  obtain ⟨blocks, hlineage, -⟩ := bind_eq_ok_iff.mp hroot
  obtain ⟨root', path, hroot', hpath⟩ :=
    Hierarchy.exists_root (Hierarchy.lineage_eq_ok_iff.mp hlineage).1
  obtain rfl : root = root' := Except.ok.inj (hroot.symm.trans hroot')
  exact ⟨path, hpath⟩

theorem Home.unique {root root' : BlockId} (h : plan.Home a root) (h' : plan.Home a root') :
    root = root' := by
  obtain ⟨action, owner, haction, howner, hroot⟩ := h
  obtain ⟨action', owner', haction', howner', hroot'⟩ := h'
  obtain rfl : action = action' := Option.some.inj (haction.symm.trans haction')
  obtain rfl : owner = owner' := Option.some.inj (howner.symm.trans howner')
  exact Except.ok.inj (hroot.symm.trans hroot')

theorem Couples.between (h : plan.Couples a b)
    (hcouplings : plan.couplings.Between plan.roster.size) :
    a < plan.roster.size ∧ b < plan.roster.size := by
  rcases h with ⟨relation, hrelation, rfl, rfl⟩ | htie
  · exact hcouplings.relations relation hrelation
  · exact hcouplings.simultaneous a b htie

/-- Actions are told apart by their names. -/
theorem eq_of_name_eq (hdistinct : plan.roster.Distinct) (ha : a < plan.roster.size)
    (hb : b < plan.roster.size) (h : plan.name a = plan.name b) : a = b := by
  have hname : ∀ {a}, a < plan.roster.size →
      (plan.roster.actions.toList.map (·.qualifiedName))[a]? = some (plan.name a) := by
    intro a ha
    rw [List.getElem?_map, Array.getElem?_toList, Array.getElem?_eq_getElem ha, Plan.name,
      Roster.name, Array.getElem?_eq_getElem ha]
    rfl
  refine (List.getElem?_inj (by simpa [Roster.size] using ha) hdistinct).mp ?_
  rw [hname ha, hname hb, h]

end Plan

/-! ### Two tests of silence -/

namespace Slate

variable {reach : Reach} {slate : Slate} {a b : ActionId} {remark : Warning}

section Drawn

variable (h : slate.Drawn reach) (hfollowed : Reach.Followed slate.plan reach)
include h hfollowed

/-- What stands for no transaction is silent. -/
theorem standsFor_isEmpty_iff : (slate.reach.standsFor a).isEmpty = true ↔ slate.plan.Silent a := by
  obtain rfl := h.reach_eq
  rw [List.isEmpty_iff, List.eq_nil_iff_forall_not_mem]
  refine forall_congr' fun t => ?_
  rw [Reach.mem_standsFor, hfollowed.carries_iff, not_and, not_or, not_exists]
  rfl

/-- What no candidate takes part in is silent, because every transaction is in a candidate. -/
theorem usersOf_isEmpty_iff : (slate.usersOf a).isEmpty = true ↔ slate.plan.Silent a := by
  rw [List.isEmpty_iff, List.eq_nil_iff_forall_not_mem]
  constructor
  · intro hnone t ht
    obtain rfl := h.reach_eq
    obtain ⟨members, hmembers, hmem⟩ := Reach.exists_runsAsOne h.ties_eq ht
    have hcandidate := (Reach.mem_candidates_iff h.ties_eq).mpr ⟨members, hmembers, rfl⟩
    obtain ⟨c, hc⟩ := List.mem_iff_getElem?.mp (h.candidates_eq ▸ hcandidate)
    have hholds : slate.Holds c t := ⟨_, hc, (Finset.mem_sort _).mpr hmem⟩
    have hnot := fun hinvolves => hnone c ((mem_usersOf_iff h hfollowed).mpr hinvolves)
    refine ⟨fun heq => hnot (.inl (heq ▸ hholds)), fun ids hids => ?_⟩
    exact hnot (.inr ⟨t, ids, hholds, hids⟩)
  · intro hsilent c hc
    rcases (mem_usersOf_iff h hfollowed).mp hc with hholds | ⟨t, ids, hholds, hids⟩
    · obtain ⟨transaction, ha⟩ := holds_transaction h hholds
      exact (hsilent a (List.mem_map_of_mem ha)).1 rfl
    · obtain ⟨transaction, ht⟩ := holds_transaction h hholds
      exact (hsilent t (List.mem_map_of_mem ht)).2 ids hids

end Drawn

/-! ### The passes -/

theorem idle_eq_some_iff {independent first second : Bool} {w w' : Warning} :
    (if independent then none else if first then some w else if second then some w' else none) =
        some remark ↔
      independent = false ∧ (first = true ∧ w = remark ∨
        first = false ∧ second = true ∧ w' = remark) := by
  cases independent <;> cases first <;> cases second <;> simp

/-- The tests for a pair that is idle are for its first silent action. -/
theorem idles_iff {reason : ActionId → String} {first second : Bool}
    (hfirst : first = true ↔ slate.plan.Silent a) (hsecond : second = true ↔ slate.plan.Silent b) :
    (if slate.plan.couplings.isIndependent a b then none
      else if first then some (slate.ineffective reason a b a)
      else if second then some (slate.ineffective reason a b b) else none) = some remark ↔
      ∃ silent, slate.plan.Idles a b silent ∧ slate.ineffective reason a b silent = remark := by
  rw [idle_eq_some_iff, ← Bool.not_eq_true first, hfirst, hsecond, Couplings.isIndependent,
    ← Bool.not_eq_true, List.contains_iff_mem]
  unfold Plan.Idles
  constructor
  · rintro ⟨hnot, ⟨ha, rfl⟩ | ⟨ha, hb, rfl⟩⟩
    · exact ⟨a, ⟨hnot, .inl ⟨ha, rfl⟩⟩, rfl⟩
    · exact ⟨b, ⟨hnot, .inr ⟨ha, hb, rfl⟩⟩, rfl⟩
  · rintro ⟨silent, ⟨hnot, ⟨ha, rfl⟩ | ⟨ha, hb, rfl⟩⟩, rfl⟩
    · exact ⟨hnot, .inl ⟨ha, rfl⟩⟩
    · exact ⟨hnot, .inr ⟨ha, hb, rfl⟩⟩

/-- What is silent is a method, if it is there at all. -/
theorem unused_eq {silent : ActionId} (hlt : silent < slate.plan.roster.size)
    (hsilent : slate.plan.Silent silent) : slate.unused silent = slate.uncalled silent := by
  have haction := Array.getElem?_eq_getElem hlt
  have hmethod : slate.plan.roster.actions[silent].isMethod = true := by
    by_contra hnot
    have hrole : slate.plan.roster.actions[silent].isTransaction = true := by
      rwa [Action.isTransaction, Option.isNone_iff_eq_none, ← Option.not_isSome_iff_eq_none]
    have hmem := Roster.mem_transactions.mpr ⟨haction, hrole⟩
    exact (hsilent silent (List.mem_map_of_mem hmem)).1 rfl
  unfold unused
  rw [haction, Option.any_some, if_pos hmethod]

theorem home?_eq_some_iff {root : BlockId} {path : String} :
    slate.home? a = some (root, path) ↔
      slate.plan.Home a root ∧ slate.plan.blocks.path root = .ok path := by
  have hok : ∀ {β : Type} {answer : Except Fault β} {b : β},
      answer.toOption = some b ↔ answer = .ok b := by
    intro β answer b
    cases answer <;> simp [Except.toOption]
  unfold home? Plan.Home
  simp only [Option.bind_eq_bind, Option.bind_eq_some_iff, hok, Option.pure_def, Option.some.injEq,
    Prod.mk.injEq]
  constructor
  · rintro ⟨action, haction, owner, howner, root', hroot, path', hpath, rfl, rfl⟩
    exact ⟨⟨action, owner, haction, howner, hroot⟩, hpath⟩
  · rintro ⟨⟨action, owner, haction, howner, hroot⟩, hpath⟩
    exact ⟨action, haction, owner, howner, root, hroot, path, hpath, rfl, rfl⟩

theorem crossing?_eq_some_iff : slate.crossing? a b = some remark ↔
    ∃ root root' path path', slate.plan.Crosses a b root root' ∧
      slate.plan.blocks.path root = .ok path ∧ slate.plan.blocks.path root' = .ok path' ∧
      .crossBlock (slate.plan.name a) (slate.plan.name b) path path' = remark := by
  unfold crossing? Plan.Crosses
  simp only [Option.bind_eq_bind, Option.bind_eq_some_iff, Option.guard_eq_some', Prod.exists,
    home?_eq_some_iff, Option.pure_def, Option.some.injEq, Bool.not_eq_true', bne_iff_ne,
    Couplings.isAcknowledged, ← Bool.not_eq_true, List.contains_iff_mem]
  constructor
  · rintro ⟨-, hnot, root, path, ⟨ha, hpath⟩, root', path', ⟨hb, hpath'⟩, -, hne, rfl⟩
    exact ⟨root, root', path, path', ⟨hnot, ha, hb, hne⟩, hpath, hpath', rfl⟩
  · rintro ⟨root, root', path, path', ⟨hnot, ha, hb, hne⟩, hpath, hpath', rfl⟩
    exact ⟨(), hnot, root, path, ⟨ha, hpath⟩, root', path', ⟨hb, hpath'⟩, (), hne, rfl⟩

variable (h : slate.Drawn reach) (hfollowed : Reach.Followed slate.plan reach)
  (hcouplings : slate.plan.couplings.Between slate.plan.roster.size)
include h hfollowed

theorem mem_idleTies : remark ∈ slate.idleTies ↔
    ∃ a b, (a, b) ∈ slate.plan.couplings.simultaneous ∧
      ∃ silent, slate.plan.Idles a b silent ∧
        slate.ineffective slate.uncalled a b silent = remark := by
  simp only [idleTies, List.mem_filterMap, Prod.exists]
  refine exists_congr fun a => exists_congr fun b => and_congr_right fun _ => ?_
  exact idles_iff (standsFor_isEmpty_iff h hfollowed) (standsFor_isEmpty_iff h hfollowed)

include hcouplings

theorem mem_idleRelations : remark ∈ slate.idleRelations ↔
    ∃ relation ∈ slate.plan.couplings.relations,
      ∃ silent, slate.plan.Idles relation.start relation.finish silent ∧
        slate.ineffective slate.uncalled relation.start relation.finish silent = remark := by
  simp only [idleRelations, List.mem_filterMap]
  refine exists_congr fun relation => and_congr_right fun hrelation => ?_
  rw [idles_iff (usersOf_isEmpty_iff h hfollowed) (usersOf_isEmpty_iff h hfollowed)]
  obtain ⟨hstart, hfinish⟩ := hcouplings.relations relation hrelation
  refine exists_congr fun silent => and_congr_right fun hidles => ?_
  unfold ineffective
  rw [unused_eq (hidles.lt hstart hfinish) hidles.silent]

/-- **Remarks are those on the declared pairs**, each on an idle pair or on one across blocks. -/
theorem mem_warnings_iff : remark ∈ slate.warnings ↔ ∃ a b, slate.plan.Couples a b ∧
    ((∃ silent, slate.plan.Idles a b silent ∧
        slate.ineffective slate.uncalled a b silent = remark) ∨
      slate.crossing? a b = some remark) := by
  simp only [warnings, mem_ascending Warning.lt_ranking.separating, List.mem_append,
    mem_idleTies h hfollowed, mem_idleRelations h hfollowed hcouplings, crossings,
    List.mem_filterMap, Prod.exists, List.mem_map, Plan.Couples, Prod.mk.injEq]
  refine ⟨fun hmem => ?_, fun hmem => ?_⟩
  · rcases hmem with (⟨a, b, htie, hidle⟩ | ⟨relation, hrelation, hidle⟩) | ⟨a, b, hpair, hcrossing⟩
    · exact ⟨a, b, .inr htie, .inl hidle⟩
    · exact ⟨_, _, .inl ⟨relation, hrelation, rfl, rfl⟩, .inl hidle⟩
    · exact ⟨a, b, hpair, .inr hcrossing⟩
  · obtain ⟨a, b, hpair, hidle | hcrossing⟩ := hmem
    · rcases hpair with ⟨relation, hrelation, rfl, rfl⟩ | htie
      · exact .inl (.inr ⟨relation, hrelation, hidle⟩)
      · exact .inl (.inl ⟨a, b, htie, hidle⟩)
    · exact .inr ⟨a, b, hpair, hcrossing⟩

end Slate

/-! ### Warnings -/

namespace Contention

variable {plan : Plan} {reach : Reach} {contention : Contention}

/-- What is remarked on a plan. -/
structure Remarked (plan : Plan) (contention : Contention) : Prop where
  ascending : contention.warnings.Pairwise fun w w' => Warning.lt w w' = true
  once : contention.warnings.Nodup
  /-- Every warning is about two actions that were declared to go together. -/
  about : ∀ w ∈ contention.warnings, ∃ a b, plan.Couples a b ∧
    ((∃ path path', w = .crossBlock (plan.name a) (plan.name b) path path') ∨
      ∃ reason, w = .ineffective (plan.name a) (plan.name b) reason)
  crossing : ∀ a b, a < plan.roster.size → b < plan.roster.size →
    ((∃ path path', .crossBlock (plan.name a) (plan.name b) path path' ∈ contention.warnings) ↔
      plan.Couples a b ∧ ∃ root root', plan.Crosses a b root root')
  /-- The blocks are given by their paths. -/
  homes : ∀ a b root root', a < plan.roster.size → b < plan.roster.size → plan.Home a root →
    plan.Home b root' → ∀ path path',
      .crossBlock (plan.name a) (plan.name b) path path' ∈ contention.warnings →
        plan.blocks.path root = .ok path ∧ plan.blocks.path root' = .ok path'
  /-- The reason names the first silent action. -/
  ineffective : ∀ a b, a < plan.roster.size → b < plan.roster.size → ∀ reason,
    .ineffective (plan.name a) (plan.name b) reason ∈ contention.warnings ↔
      plan.Couples a b ∧ ∃ silent, plan.Idles a b silent ∧
        Warning.neverCalled (plan.name silent) = reason
  /-- Nothing is ineffective between actions that transactions lead to. -/
  effective : ∀ a b, a < plan.roster.size → b < plan.roster.size → ¬ plan.Silent a →
    ¬ plan.Silent b → ∀ reason,
      .ineffective (plan.name a) (plan.name b) reason ∉ contention.warnings

theorem warnings_eq (h : ofReach reach = .ok contention) :
    contention.warnings = contention.slate.warnings := by
  obtain ⟨slate, hslate, -⟩ := bind_eq_ok_iff.mp h
  rw [ofReach_eq hslate] at h
  split at h
  · cases h
  · split at h
    · cases h
    · cases h
      rfl

section Named

variable (hreach : Reach.ofPlan plan = .ok reach) (hcontention : ofReach reach = .ok contention)
  (hdistinct : plan.roster.Distinct) (hcouplings : plan.couplings.Between plan.roster.size)
include hreach hcontention hcouplings

theorem mem_warnings_iff {w : Warning} : w ∈ contention.warnings ↔ ∃ a b, plan.Couples a b ∧
    ((∃ silent, plan.Idles a b silent ∧ .ineffective (plan.name a) (plan.name b)
        (Warning.neverCalled (plan.name silent)) = w) ∨
      ∃ root root' path path', plan.Crosses a b root root' ∧ plan.blocks.path root = .ok path ∧
        plan.blocks.path root' = .ok path' ∧
        .crossBlock (plan.name a) (plan.name b) path path' = w) := by
  have hdrawn := (ofReach_workedOut hcontention).drawn
  have hfollowed := Reach.ofPlan_followed hreach
  obtain rfl : contention.slate.plan = plan := by
    rw [Slate.plan, hdrawn.reach_eq, hfollowed.plan_eq]
  rw [warnings_eq hcontention, Slate.mem_warnings_iff hdrawn hfollowed hcouplings]
  simp only [Slate.crossing?_eq_some_iff]
  rfl

include hdistinct

theorem ineffective_mem_iff {a b : ActionId} (ha : a < plan.roster.size)
    (hb : b < plan.roster.size) {reason : String} :
    .ineffective (plan.name a) (plan.name b) reason ∈ contention.warnings ↔
      plan.Couples a b ∧ ∃ silent, plan.Idles a b silent ∧
        Warning.neverCalled (plan.name silent) = reason := by
  rw [mem_warnings_iff hreach hcontention hcouplings]
  constructor
  · rintro ⟨a', b', hpair, ⟨silent, hidle, heq⟩ | ⟨_, _, _, _, -, -, -, heq⟩⟩
    · obtain ⟨hname, hname', hreason⟩ := Warning.ineffective.inj heq
      obtain ⟨ha', hb'⟩ := hpair.between hcouplings
      obtain rfl := Plan.eq_of_name_eq hdistinct ha' ha hname
      obtain rfl := Plan.eq_of_name_eq hdistinct hb' hb hname'
      exact ⟨hpair, silent, hidle, hreason⟩
    · cases heq
  · rintro ⟨hpair, silent, hidle, rfl⟩
    exact ⟨a, b, hpair, .inl ⟨silent, hidle, rfl⟩⟩

theorem crossBlock_mem_iff {a b : ActionId} (ha : a < plan.roster.size)
    (hb : b < plan.roster.size) {path path' : String} :
    .crossBlock (plan.name a) (plan.name b) path path' ∈ contention.warnings ↔
      plan.Couples a b ∧ ∃ root root', plan.Crosses a b root root' ∧
        plan.blocks.path root = .ok path ∧ plan.blocks.path root' = .ok path' := by
  rw [mem_warnings_iff hreach hcontention hcouplings]
  constructor
  · rintro ⟨a', b', hpair, ⟨silent, -, heq⟩ |
      ⟨root, root', _, _, hcrosses, hpath, hpath', heq⟩⟩
    · cases heq
    · obtain ⟨hname, hname', rfl, rfl⟩ := Warning.crossBlock.inj heq
      obtain ⟨ha', hb'⟩ := hpair.between hcouplings
      obtain rfl := Plan.eq_of_name_eq hdistinct ha' ha hname
      obtain rfl := Plan.eq_of_name_eq hdistinct hb' hb hname'
      exact ⟨hpair, root, root', hcrosses, hpath, hpath'⟩
  · rintro ⟨hpair, root, root', hcrosses, hpath, hpath'⟩
    exact ⟨a, b, hpair, .inr ⟨root, root', path, path', hcrosses, hpath, hpath', rfl⟩⟩

end Named

/-- **Warnings are exact.**  If the actions of a plan differ in name and its couplings are between
them, the warnings of its contention are ascending, and there is one for just the declared pairs
across outermost blocks that nobody acknowledged, and one for just those with a silent action that
are no alternatives. -/
theorem warnings_exact (hreach : Reach.ofPlan plan = .ok reach)
    (hcontention : ofReach reach = .ok contention) (hdistinct : plan.roster.Distinct)
    (hcouplings : plan.couplings.Between plan.roster.size) : contention.Remarked plan where
  ascending := by
    rw [warnings_eq hcontention]
    exact ascending_pairwise Warning.lt_ranking _
  once := by
    rw [warnings_eq hcontention]
    exact nodup_of_pairwise Warning.lt_ranking (ascending_pairwise Warning.lt_ranking _)
  about := by
    intro w hw
    obtain ⟨a, b, hpair, ⟨silent, -, rfl⟩ | ⟨root, root', path, path', -, -, -, rfl⟩⟩ :=
      (mem_warnings_iff hreach hcontention hcouplings).mp hw
    · exact ⟨a, b, hpair, .inr ⟨_, rfl⟩⟩
    · exact ⟨a, b, hpair, .inl ⟨path, path', rfl⟩⟩
  crossing := by
    intro a b ha hb
    simp only [crossBlock_mem_iff hreach hcontention hdistinct hcouplings ha hb]
    constructor
    · rintro ⟨path, path', hpair, root, root', hcrosses, -, -⟩
      exact ⟨hpair, root, root', hcrosses⟩
    · rintro ⟨hpair, root, root', hcrosses⟩
      obtain ⟨path, hpath⟩ := hcrosses.2.1.exists_path
      obtain ⟨path', hpath'⟩ := hcrosses.2.2.1.exists_path
      exact ⟨path, path', hpair, root, root', hcrosses, hpath, hpath'⟩
  homes := by
    intro a b root root' ha hb hroot hroot' path path' hw
    obtain ⟨-, there, there', ⟨-, hthere, hthere', -⟩, hpath, hpath'⟩ :=
      (crossBlock_mem_iff hreach hcontention hdistinct hcouplings ha hb).mp hw
    rw [hroot.unique hthere, hroot'.unique hthere']
    exact ⟨hpath, hpath'⟩
  ineffective := fun a b ha hb reason =>
    ineffective_mem_iff hreach hcontention hdistinct hcouplings ha hb
  effective := by
    intro a b ha hb hleads hleads' reason hw
    obtain ⟨-, silent, ⟨-, ⟨hsilent, -⟩ | ⟨-, hsilent, -⟩⟩, -⟩ :=
      (ineffective_mem_iff hreach hcontention hdistinct hcouplings ha hb).mp hw
    · exact hleads hsilent
    · exact hleads' hsilent

/-- A sender in one block, and a receiver in another with a method that nobody calls.  That the
sender comes before the receiver is acknowledged. -/
def mailPlan : Plan where
  blocks := ⟨#[⟨"office", none⟩, ⟨"home", none⟩]⟩
  roster := ⟨#[⟨"sender", "office.sender", some 0, 0, 0, .transaction⟩,
    ⟨"receiver", "home.receiver", some 1, 0, 0, .transaction⟩,
    ⟨"flush", "home.flush", some 1, 0, 0, .method ⟨.empty, .empty, false, false, none, none⟩⟩]⟩
  calls := .empty
  couplings := ⟨[.before 0 1, .conflict 0 2 .undefined], [(1, 2)], [], [(0, 1)]⟩

theorem mail_remarked : ∃ reach contention, Reach.ofPlan mailPlan = .ok reach ∧
    ofReach reach = .ok contention ∧ mailPlan.roster.Distinct ∧
    mailPlan.couplings.Between mailPlan.roster.size ∧
    contention.warnings =
      [.crossBlock "office.sender" "home.flush" "office" "home",
        .ineffective "home.receiver" "home.flush" "'home.flush' is never called",
        .ineffective "office.sender" "home.flush" "'home.flush' is never called"] ∧
    contention.Remarked mailPlan := by
  have hpasses : passes mailPlan (fun contention => contention.warnings ==
      [.crossBlock "office.sender" "home.flush" "office" "home",
        .ineffective "home.receiver" "home.flush" "'home.flush' is never called",
        .ineffective "office.sender" "home.flush" "'home.flush' is never called"]) = true := by
    decide +kernel
  obtain ⟨reach, contention, hreach, hcontention, hwarnings⟩ := exists_of_passes hpasses
  have hdistinct : mailPlan.roster.Distinct := by
    unfold Roster.Distinct
    decide +kernel
  have hcouplings : mailPlan.couplings.Between mailPlan.roster.size :=
    ⟨by decide, by simp [mailPlan, Roster.size], by simp [mailPlan]⟩
  exact ⟨reach, contention, hreach, hcontention, hdistinct, hcouplings, eq_of_beq hwarnings,
    warnings_exact hreach hcontention hdistinct hcouplings⟩

end Contention

end Interlock
