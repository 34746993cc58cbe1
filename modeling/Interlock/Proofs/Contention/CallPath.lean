/-
Call paths are the chains of calls.

A chain of call sites leads from an action to a method if each site belongs to the method that the
one before it calls.  The paths of so many steps are the chains of that length at most, so the
paths of a plan are all chains, provided that none is longer than there are actions.

That is what the search in depth is for.  It lists an action as clear only after all methods that
the action calls, so that along a chain the places in the list go down: a chain from a clear action
is no longer than the list behind it.  The search has steps enough because the actions on the way
are different ones.
-/
import Mathlib.Data.List.Nodup
import Mathlib.Data.List.Perm.Subperm
import Interlock.Contention.CallPath
import Interlock.Proofs.Answer

namespace Interlock

namespace Calls

variable {calls : Calls}

theorem mem_entries {id : CallId} {site : CallSite} :
    (id, site) ∈ calls.entries ↔ calls.sites[id]? = some site := by
  simp only [entries, List.mem_map, Prod.exists, List.mem_zipIdx_iff_getElem?, Prod.mk.injEq,
    Array.getElem?_toList]
  constructor
  · rintro ⟨_, _, h, rfl, rfl⟩
    exact h
  · intro h
    exact ⟨site, id, h, rfl, rfl⟩

theorem mem_byCaller {id : CallId} {site : CallSite} {a : ActionId} :
    (id, site) ∈ calls.byCaller a ↔ calls.sites[id]? = some site ∧ site.caller = a := by
  simp only [byCaller, List.mem_filter, mem_entries, beq_iff_eq]

theorem mem_byCallee {id : CallId} {site : CallSite} {m : ActionId} :
    (id, site) ∈ calls.byCallee m ↔ calls.sites[id]? = some site ∧ site.callee = m := by
  simp only [byCallee, List.mem_filter, mem_entries, beq_iff_eq]

/-! ### Chains -/

/-- Call sites, each of the method that the one before it calls, lead from an action to a
method. -/
inductive Leads (calls : Calls) : ActionId → List CallId → ActionId → Prop
  | last {id : CallId} {site : CallSite} : calls.sites[id]? = some site →
      Leads calls site.caller [id] site.callee
  | step {id : CallId} {site : CallSite} {ids : List CallId} {m : ActionId} :
      calls.sites[id]? = some site → Leads calls site.callee ids m →
      Leads calls site.caller (id :: ids) m

theorem Leads.append {a b m : ActionId} {ids ids' : List CallId} (h : calls.Leads a ids b)
    (h' : calls.Leads b ids' m) : calls.Leads a (ids ++ ids') m := by
  induction h with
  | last hsite => exact .step hsite h'
  | step hsite _ ih => exact .step hsite (ih h')

theorem Leads.exists_site {a m : ActionId} {ids : List CallId} (h : calls.Leads a ids m) :
    ∀ id ∈ ids, ∃ site, calls.sites[id]? = some site := by
  induction h with
  | last hsite => exact List.forall_mem_singleton.mpr ⟨_, hsite⟩
  | step hsite _ ih => exact List.forall_mem_cons.mpr ⟨⟨_, hsite⟩, ih⟩

theorem Leads.ne_nil {a m : ActionId} {ids : List CallId} (h : calls.Leads a ids m) :
    ids ≠ [] := by
  cases h <;> simp

/-- The last call site of a chain calls the method that the chain leads to. -/
theorem Leads.callee_eq {a m : ActionId} {ids : List CallId} (h : calls.Leads a ids m) :
    ∀ {id : CallId} {site : CallSite}, ids.getLast? = some id → calls.sites[id]? = some site →
      site.callee = m := by
  induction h with
  | last hsite =>
      intro id site hlast hother
      rw [List.getLast?_singleton] at hlast
      cases hlast
      rw [hsite] at hother
      cases hother
      rfl
  | step hsite hleads ih =>
      intro id site hlast hother
      refine ih ?_ hother
      rwa [List.getLast?_cons_of_ne_nil hleads.ne_nil] at hlast

/-- The paths of so many steps are the chains of that length at most. -/
theorem mem_pathsFrom (steps : Nat) : ∀ (a : ActionId) (path : CallPath),
    path ∈ calls.pathsFrom steps a ↔
      calls.Leads a path.sites path.method ∧ path.sites.length ≤ steps := by
  induction steps with
  | zero =>
      intro a path
      refine ⟨fun h => absurd h (by simp [pathsFrom]), ?_⟩
      rintro ⟨hleads, hlength⟩
      obtain ⟨method, sites⟩ := path
      cases hleads <;> simp at hlength
  | succ steps ih =>
      intro a path
      simp only [pathsFrom, List.mem_flatMap, List.mem_cons, List.mem_map, Prod.exists,
        mem_byCaller, ih]
      constructor
      · rintro ⟨id, site, ⟨hsite, rfl⟩, rfl | ⟨below, ⟨hleads, hlength⟩, rfl⟩⟩
        · exact ⟨.last hsite, by simp⟩
        · exact ⟨.step hsite hleads, by simpa using hlength⟩
      · obtain ⟨method, sites⟩ := path
        rintro ⟨hleads, hlength⟩
        cases hleads with
        | last hsite => exact ⟨_, _, ⟨hsite, rfl⟩, .inl rfl⟩
        | step hsite hleads =>
            refine ⟨_, _, ⟨hsite, rfl⟩, .inr ⟨⟨method, _⟩, ⟨hleads, ?_⟩, rfl⟩⟩
            simpa using hlength

theorem byCaller_pairwise (a : ActionId) :
    (calls.byCaller a).Pairwise fun entry other => entry.1 ≠ other.1 := by
  refine List.Pairwise.sublist List.filter_sublist ?_
  unfold entries
  rw [List.pairwise_map, ← List.pairwise_map (f := Prod.snd) (R := (· ≠ ·)), List.zipIdx_map_snd]
  exact List.nodup_range'

/-- No path is listed twice. -/
theorem pathsFrom_nodup (steps : Nat) : ∀ a : ActionId, (calls.pathsFrom steps a).Nodup := by
  induction steps with
  | zero => intro a; exact List.nodup_nil
  | succ steps ih =>
      intro a
      unfold pathsFrom
      refine List.nodup_flatMap.mpr ⟨?_, (byCaller_pairwise a).imp ?_⟩
      · intro entry _
        refine List.nodup_cons.mpr ⟨?_, (ih entry.2.callee).map ?_⟩
        · intro hmem
          obtain ⟨below, hbelow, heq⟩ := List.mem_map.mp hmem
          have hnil : below.sites = [] := by simpa using congrArg CallPath.sites heq
          exact ((mem_pathsFrom steps _ below).mp hbelow).1.ne_nil hnil
        · intro path other heq
          obtain ⟨hmethod, hsites⟩ := CallPath.mk.inj heq
          obtain ⟨method, sites⟩ := path
          obtain ⟨method', sites'⟩ := other
          simp_all
      · -- The first call site tells the paths of two entries apart.
        intro entry other hne path hpath hother
        have hfirst : ∀ e : CallId × CallSite, path ∈ (⟨e.2.callee, [e.1]⟩ :: (calls.pathsFrom steps
            e.2.callee).map fun below => ⟨below.method, e.1 :: below.sites⟩ : List CallPath) →
            path.sites.head? = some e.1 := by
          intro e he
          rcases List.mem_cons.mp he with rfl | he
          · rfl
          · obtain ⟨below, -, rfl⟩ := List.mem_map.mp he
            rfl
        have hsame := (hfirst entry hpath).symm.trans (hfirst other hother)
        exact hne (Option.some.inj hsame)

/-! ### The search -/

/-- The calls are between so many actions. -/
def Between (calls : Calls) (actions : Nat) : Prop :=
  ∀ (id : CallId) (site : CallSite), calls.sites[id]? = some site →
    site.caller < actions ∧ site.callee < actions

theorem Leads.caller_lt {actions : Nat} (hcalls : calls.Between actions) {a m : ActionId}
    {ids : List CallId} (h : calls.Leads a ids m) : a < actions := by
  cases h with
  | last hsite => exact (hcalls _ _ hsite).1
  | step hsite _ => exact (hcalls _ _ hsite).1

/-- What the search has listed: actions not on the way, each after all methods that it calls.
The latest comes first. -/
structure Cleared (calls : Calls) (actions : Nat) (way clear : List ActionId) : Prop where
  nodup : clear.Nodup
  bounded : ∀ a ∈ clear, a < actions
  offWay : ∀ a ∈ way, a ∉ clear
  below : ∀ later a earlier, clear = later ++ a :: earlier →
    ∀ (id : CallId) (site : CallSite), calls.sites[id]? = some site → site.caller = a →
      site.callee ∈ earlier

variable {actions : Nat} {way clear clear' : List ActionId}

theorem cleared_nil (way : List ActionId) : calls.Cleared actions way [] where
  nodup := List.nodup_nil
  bounded := fun _ ha => absurd ha (by simp)
  offWay := fun _ _ => by simp
  below := fun later a earlier h => absurd h (by simp)

/-- An action is listed after the methods it calls. -/
theorem cleared_cons {a : ActionId} (h : calls.Cleared actions (a :: way) clear)
    (ha : a < actions) (hway : a ∉ way)
    (hbelow : ∀ (id : CallId) (site : CallSite), calls.sites[id]? = some site →
      site.caller = a → site.callee ∈ clear) :
    calls.Cleared actions way (a :: clear) where
  nodup := List.nodup_cons.mpr ⟨h.offWay a (by simp), h.nodup⟩
  bounded := by
    intro b hb
    rcases List.mem_cons.mp hb with rfl | hb
    · exact ha
    · exact h.bounded b hb
  offWay := by
    intro b hb hmem
    rcases List.mem_cons.mp hmem with rfl | hmem
    · exact hway hb
    · exact h.offWay b (List.mem_cons_of_mem _ hb) hmem
  below := by
    intro later b earlier hsplit
    cases later with
    | nil =>
        cases hsplit
        exact hbelow
    | cons c later =>
        cases hsplit
        exact h.below later b earlier rfl

theorem cleared_push {a : ActionId} (h : calls.Cleared actions way clear) (ha : a ∉ clear) :
    calls.Cleared actions (a :: way) clear where
  nodup := h.nodup
  bounded := h.bounded
  offWay := by
    intro b hb
    rcases List.mem_cons.mp hb with rfl | hb
    · exact ha
    · exact h.offWay b hb
  below := h.below

/-- A fold of searches keeps what every search keeps, and clears what every search clears. -/
theorem foldlM_cleared {α : Type} (target : α → ActionId)
    {f : List ActionId → α → Except (List ActionId) (List ActionId)} {l : List α}
    (hf : ∀ x ∈ l, ∀ clear clear', calls.Cleared actions way clear → f clear x = .ok clear' →
      calls.Cleared actions way clear' ∧ clear ⊆ clear' ∧ target x ∈ clear') :
    ∀ clear clear', calls.Cleared actions way clear → l.foldlM f clear = .ok clear' →
      calls.Cleared actions way clear' ∧ clear ⊆ clear' ∧ ∀ x ∈ l, target x ∈ clear' := by
  induction l with
  | nil =>
      intro clear clear' h hrun
      cases hrun
      exact ⟨h, fun _ hx => hx, fun x hx => absurd hx (by simp)⟩
  | cons x rest ih =>
      intro clear clear' h hrun
      rw [List.foldlM_cons] at hrun
      obtain ⟨next, hstep, hrun⟩ := bind_eq_ok_iff.mp hrun
      obtain ⟨hnext, hsub, hx⟩ := hf x (by simp) clear next h hstep
      obtain ⟨hlast, hsub', hrest⟩ :=
        ih (fun y hy => hf y (List.mem_cons_of_mem _ hy)) next clear' hnext hrun
      refine ⟨hlast, fun y hy => hsub' (hsub hy), fun y hy => ?_⟩
      rcases List.mem_cons.mp hy with rfl | hy
      · exact hsub' hx
      · exact hrest y hy

theorem length_le_of_bounded {l : List Nat} (hnodup : l.Nodup) (hl : ∀ a ∈ l, a < actions) :
    l.length ≤ actions := by
  have hsub := (hnodup.subperm fun a ha => List.mem_range.mpr (hl a ha)).length_le
  rwa [List.length_range] at hsub

/-- The search clears the action it starts from, unless it finds a circle. -/
theorem search_cleared (hcalls : calls.Between actions) (steps : Nat) :
    ∀ (way clear : List ActionId) (a : ActionId) (clear' : List ActionId),
      steps + way.length = actions + 1 → way.Nodup → (∀ b ∈ way, b < actions) → a < actions →
      calls.Cleared actions way clear → calls.search steps way clear a = .ok clear' →
      calls.Cleared actions way clear' ∧ clear ⊆ clear' ∧ a ∈ clear' := by
  induction steps with
  | zero =>
      intro way clear a clear' hsteps hnodup hway
      -- The steps do not run out: the actions on the way are different ones.
      have hlength := length_le_of_bounded hnodup hway
      omega
  | succ steps ih =>
      intro way clear a clear' hsteps hnodup hway ha h hrun
      unfold search at hrun
      by_cases hclear : clear.contains a = true
      · rw [if_pos hclear] at hrun
        cases hrun
        exact ⟨h, fun _ hx => hx, List.contains_iff_mem.mp hclear⟩
      rw [if_neg hclear] at hrun
      by_cases hseen : way.contains a = true
      · rw [if_pos hseen] at hrun
        cases hrun
      rw [if_neg hseen] at hrun
      have hfresh : a ∉ clear := fun hmem => hclear (List.contains_iff_mem.mpr hmem)
      have hoff : a ∉ way := fun hmem => hseen (List.contains_iff_mem.mpr hmem)
      obtain ⟨below, hfold, hpure⟩ := bind_eq_ok_iff.mp hrun
      cases hpure
      have hway' : ∀ b ∈ a :: way, b < actions := by
        intro b hb
        rcases List.mem_cons.mp hb with rfl | hb
        · exact ha
        · exact hway b hb
      have hone : ∀ entry ∈ calls.byCaller a, ∀ clear clear',
          calls.Cleared actions (a :: way) clear →
          calls.search steps (a :: way) clear entry.2.callee = .ok clear' →
          calls.Cleared actions (a :: way) clear' ∧ clear ⊆ clear' ∧
            entry.2.callee ∈ clear' :=
        fun entry hentry clear clear' =>
          ih (a :: way) clear entry.2.callee clear' (by rw [List.length_cons]; omega)
            (List.nodup_cons.mpr ⟨hoff, hnodup⟩) hway'
            (hcalls _ _ (mem_byCaller.mp hentry).1).2
      obtain ⟨hbelow, hsub, hcallees⟩ := foldlM_cleared (fun entry => entry.2.callee) hone
        clear below (cleared_push h hfresh) hfold
      refine ⟨cleared_cons hbelow ha hoff fun id site hsite hcaller => ?_, ?_, by simp⟩
      · exact hcallees (id, site) (mem_byCaller.mpr ⟨hsite, hcaller⟩)
      · exact fun b hb => List.mem_cons_of_mem _ (hsub hb)

/-- From an action that is clear, a chain goes down the list. -/
theorem leads_length_le (h : calls.Cleared actions way clear) {a m : ActionId}
    {ids : List CallId} (hleads : calls.Leads a ids m) :
    ∀ later earlier, clear = later ++ a :: earlier → ids.length ≤ earlier.length := by
  induction hleads with
  | last hsite =>
      intro later earlier hsplit
      have hmem := h.below later _ earlier hsplit _ _ hsite rfl
      exact List.length_pos_of_mem hmem
  | @step id site _ _ hsite _ ih =>
      intro later earlier hsplit
      obtain ⟨l, r, hlr⟩ := List.append_of_mem (h.below later _ earlier hsplit _ _ hsite rfl)
      have hle := ih (later ++ site.caller :: l) r (by rw [hsplit, hlr]; simp)
      rw [hlr, List.length_append, List.length_cons, List.length_cons]
      omega

/-- **Without a circle, no chain of calls is longer than there are actions.** -/
theorem leads_length_of_circle?_eq_none (hcalls : calls.Between actions)
    (h : calls.circle? actions = none) {a m : ActionId} {ids : List CallId}
    (hleads : calls.Leads a ids m) : ids.length ≤ actions := by
  unfold circle? at h
  split at h
  · rename_i clear hfold
    have hone : ∀ b ∈ List.range actions, ∀ clear clear', calls.Cleared actions [] clear →
        calls.search (actions + 1) [] clear b = .ok clear' →
        calls.Cleared actions [] clear' ∧ clear ⊆ clear' ∧ b ∈ clear' :=
      fun b hb clear clear' =>
        search_cleared hcalls (actions + 1) [] clear b clear' rfl List.nodup_nil
          (fun _ hx => absurd hx (by simp)) (List.mem_range.mp hb)
    obtain ⟨hclear, -, hall⟩ := foldlM_cleared id hone [] clear (cleared_nil []) hfold
    obtain ⟨later, earlier, hsplit⟩ :=
      List.append_of_mem (hall a (List.mem_range.mpr (hleads.caller_lt hcalls)))
    have hle := leads_length_le hclear hleads later earlier hsplit
    have hbound := length_le_of_bounded hclear.nodup hclear.bounded
    rw [hsplit, List.length_append, List.length_cons] at hbound
    omega
  · cases h

/-! ### Short chains -/

/-- A chain back to where it starts can be run through again and again. -/
theorem Leads.exists_longer {a : ActionId} {ids : List CallId} (h : calls.Leads a ids a) (n : Nat) :
    ∃ ids', calls.Leads a ids' a ∧ n < ids'.length := by
  have hpos := List.length_pos_iff.mpr h.ne_nil
  induction n with
  | zero => exact ⟨ids, h, hpos⟩
  | succ n ih =>
      obtain ⟨ids', hleads, hlength⟩ := ih
      refine ⟨ids ++ ids', h.append hleads, ?_⟩
      rw [List.length_append]
      omega

/-- An action that leads nowhere calls nothing. -/
theorem byCaller_eq_nil {a : ActionId} (h : ∀ ids m, ¬ calls.Leads a ids m) :
    calls.byCaller a = [] := by
  refine List.eq_nil_iff_forall_not_mem.mpr fun entry hentry => ?_
  obtain ⟨hsite, rfl⟩ := mem_byCaller.mp hentry
  exact h _ _ (.last hsite)

/-- What a call leads to is one step nearer. -/
theorem leads_length_lt {a : ActionId} {n : Nat}
    (h : ∀ ids m, calls.Leads a ids m → ids.length ≤ n + 1) {entry : CallId × CallSite}
    (hentry : entry ∈ calls.byCaller a) :
    ∀ ids m, calls.Leads entry.2.callee ids m → ids.length ≤ n := by
  intro ids m hleads
  obtain ⟨hsite, rfl⟩ := mem_byCaller.mp hentry
  have hle := h _ _ (.step hsite hleads)
  rw [List.length_cons] at hle
  omega

/-- More steps than the longest chain find nothing more. -/
theorem pathsFrom_eq {n : Nat} : ∀ {n' : Nat} {a : ActionId},
    (∀ ids m, calls.Leads a ids m → ids.length ≤ n) → n ≤ n' →
      calls.pathsFrom n' a = calls.pathsFrom n a := by
  induction n with
  | zero =>
      intro n' a h _
      have hnone : calls.byCaller a = [] := byCaller_eq_nil fun ids m hleads =>
        hleads.ne_nil (List.length_eq_zero_iff.mp (Nat.le_zero.mp (h ids m hleads)))
      cases n' with
      | zero => rfl
      | succ n' => simp [pathsFrom, hnone]
  | succ n ih =>
      intro n' a h hle
      cases n' with
      | zero => omega
      | succ n' =>
          unfold pathsFrom
          refine List.flatMap_congr fun entry hentry => ?_
          obtain ⟨id, site⟩ := entry
          have hbelow := ih (leads_length_lt h hentry) (Nat.le_of_succ_le_succ hle)
          dsimp only at hbelow ⊢
          rw [hbelow]

end Calls

/-! ### The paths of a plan -/

namespace Reach

variable {plan : Plan} {reach : Reach}

/-- What is known of the paths of a plan. -/
structure Followed (plan : Plan) (reach : Reach) : Prop where
  plan_eq : reach.plan = plan
  between : plan.calls.Between plan.roster.size
  bounded : ∀ {a m ids}, plan.calls.Leads a ids m → ids.length ≤ plan.roster.size
  mem_pathsOf : ∀ {a path}, path ∈ reach.pathsOf a ↔ plan.calls.Leads a path.sites path.method

theorem check_eq_ok_iff {roster : Roster} {id : ActionId} :
    roster.check id = .ok () ↔ id < roster.size := by
  unfold Roster.check
  split <;> simp_all

/-- Only a circle is in the way of calls that are between the actions of a plan. -/
theorem ofPlan_eq (hbetween : plan.calls.Between plan.roster.size) :
    ofPlan plan = match plan.calls.circle? plan.roster.size with
      | some circle => .error (.callCycle (circle.map plan.name))
      | none => .ok ⟨plan,
          (Array.range plan.roster.size).map (plan.calls.pathsFrom plan.roster.size)⟩ := by
  unfold ofPlan
  rw [forM_eq_ok_iff.mpr]
  · rfl
  · intro entry hentry
    obtain ⟨hcaller, hcallee⟩ := hbetween _ _ (Calls.mem_entries.mp hentry)
    exact bind_eq_ok_iff.mpr ⟨(), check_eq_ok_iff.mpr hcaller, check_eq_ok_iff.mpr hcallee⟩

/-- Plans whose calls run in no circle are answered with their paths. -/
theorem ofPlan_eq_ok (h : ofPlan plan = .ok reach) : plan.calls.Between plan.roster.size ∧
    plan.calls.circle? plan.roster.size = none ∧
    reach = ⟨plan, (Array.range plan.roster.size).map (plan.calls.pathsFrom plan.roster.size)⟩ := by
  unfold ofPlan at h
  obtain ⟨_, hchecks, h⟩ := bind_eq_ok_iff.mp h
  have hbetween : plan.calls.Between plan.roster.size := by
    intro id site hsite
    have hcheck := forM_eq_ok_iff.mp hchecks (id, site) (Calls.mem_entries.mpr hsite)
    obtain ⟨_, hcaller, hcallee⟩ := bind_eq_ok_iff.mp hcheck
    exact ⟨check_eq_ok_iff.mp hcaller, check_eq_ok_iff.mp hcallee⟩
  split at h
  · cases h
  · rename_i hcircle
    exact ⟨hbetween, hcircle, (Except.ok.inj h).symm⟩

theorem pathsOf_eq (h : ofPlan plan = .ok reach) (a : ActionId) : reach.pathsOf a =
    if a < plan.roster.size then plan.calls.pathsFrom plan.roster.size a else [] := by
  obtain ⟨-, -, rfl⟩ := ofPlan_eq_ok h
  by_cases ha : a < plan.roster.size
  · simp [pathsOf, ha]
  · simp [pathsOf, ha]

/-- **The paths of a plan are the chains of its calls.** -/
theorem ofPlan_followed (h : ofPlan plan = .ok reach) : Followed plan reach := by
  obtain ⟨hbetween, hcircle, hreach⟩ := ofPlan_eq_ok h
  have hbounded : ∀ {a m ids}, plan.calls.Leads a ids m → ids.length ≤ plan.roster.size :=
    fun hleads => Calls.leads_length_of_circle?_eq_none hbetween hcircle hleads
  refine ⟨by rw [hreach], hbetween, hbounded, fun {a path} => ?_⟩
  rw [pathsOf_eq h]
  by_cases ha : a < plan.roster.size
  · rw [if_pos ha, Calls.mem_pathsFrom]
    exact ⟨fun hpath => hpath.1, fun hleads => ⟨hleads, hbounded hleads⟩⟩
  · rw [if_neg ha]
    exact ⟨fun hpath => absurd hpath (by simp),
      fun hleads => absurd (hleads.caller_lt hbetween) ha⟩

/-- Each path is listed once. -/
theorem ofPlan_nodup (h : ofPlan plan = .ok reach) (a : ActionId) : (reach.pathsOf a).Nodup := by
  rw [pathsOf_eq h]
  by_cases ha : a < plan.roster.size
  · rw [if_pos ha]
    exact Calls.pathsFrom_nodup _ a
  · rw [if_neg ha]
    exact List.nodup_nil

end Reach

end Interlock
