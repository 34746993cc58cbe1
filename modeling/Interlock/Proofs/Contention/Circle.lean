/-
Calls that run in a circle.

The search goes from an action to the methods that it calls, so the actions on the way are a walk
along the calls.  When it meets one of them again, the walk since then is closed by the call that
led back, and this is the circle that it answers.  If it meets none, no action leads to itself by
any chain of calls.  A plan is therefore answered with its call paths exactly if its calls run in
no circle, and these paths are all chains of calls; otherwise the fault names a circle.
-/
import Interlock.Proofs.Contention.Arrangement
import Interlock.Proofs.Contention.Grouping
import Interlock.Proofs.Roster

namespace Interlock

namespace Calls

variable {calls : Calls}

/-! ### Calls as edges -/

/-- Which action calls which method. -/
def edges (calls : Calls) : List (ActionId × ActionId) :=
  calls.entries.map fun (_, site) => (site.caller, site.callee)

theorem mem_edges {a b : ActionId} : (a, b) ∈ calls.edges ↔ ∃ (id : CallId) (site : CallSite),
    calls.sites[id]? = some site ∧ site.caller = a ∧ site.callee = b := by
  simp only [edges, List.mem_map, Prod.exists, mem_entries, Prod.mk.injEq]

/-- An action leads to a method by the calls if a chain of call sites does. -/
theorem transGen_edges_iff {a m : ActionId} :
    Relation.TransGen (fun a b => (a, b) ∈ calls.edges) a m ↔ ∃ ids, calls.Leads a ids m := by
  refine ⟨fun hreach => ?_, fun hchain => ?_⟩
  · induction hreach with
    | single hedge =>
        obtain ⟨id, site, hsite, rfl, rfl⟩ := mem_edges.mp hedge
        exact ⟨[id], .last hsite⟩
    | tail _ hedge ih =>
        obtain ⟨ids, hleads⟩ := ih
        obtain ⟨id, site, hsite, rfl, rfl⟩ := mem_edges.mp hedge
        exact ⟨ids ++ [id], hleads.append (.last hsite)⟩
  · obtain ⟨ids, hleads⟩ := hchain
    induction hleads with
    | last hsite => exact .single (mem_edges.mpr ⟨_, _, hsite, rfl, rfl⟩)
    | step hsite _ ih => exact .head (mem_edges.mpr ⟨_, _, hsite, rfl, rfl⟩) ih

theorem acyclic_edges_iff :
    Precedence.Acyclic calls.edges ↔ ∀ a ids, ¬ calls.Leads a ids a := by
  unfold Precedence.Acyclic
  simp only [transGen_edges_iff, not_exists]

theorem between_iff {actions : Nat} : calls.Between actions ↔
    ∀ edge ∈ calls.edges, edge.1 < actions ∧ edge.2 < actions := by
  refine ⟨fun hcalls edge hedge => ?_, fun hedges id site hsite => ?_⟩
  · obtain ⟨id, site, hsite, hcaller, hcallee⟩ := mem_edges.mp hedge
    rw [← hcaller, ← hcallee]
    exact hcalls id site hsite
  · exact hedges _ (mem_edges.mpr ⟨id, site, hsite, rfl, rfl⟩)

/-! ### The circle found -/

/-- A way along the calls, the latest action first. -/
def IsWay (calls : Calls) (way : List ActionId) : Prop :=
  way.IsChain fun later earlier => (earlier, later) ∈ calls.edges

/-- What a way that comes to an action again is closed by is a circle. -/
theorem closedBy_isCircle {a : ActionId} {way : List ActionId} (hway : calls.IsWay (a :: way))
    (hmem : a ∈ way) : Precedence.IsCircle calls.edges (closedBy a way) := by
  obtain ⟨earlier, hsplit⟩ := Precedence.exists_takeWhile_append hmem
  have hround : calls.IsWay (a :: (way.takeWhile (· != a) ++ [a])) := by
    rw [hsplit, List.append_cons, ← List.cons_append] at hway
    exact hway.left_of_append
  have hclosed : closedBy a way = (a :: (way.takeWhile (· != a) ++ [a])).reverse := by
    simp [closedBy]
  refine ⟨by simp [closedBy], by rw [closedBy, List.getLast?_concat]; rfl, ?_⟩
  rw [hclosed, List.isChain_reverse]
  exact hround

/-- The search is stopped only by a circle. -/
theorem search_isCircle (steps : Nat) : ∀ (way clear : List ActionId) (a : ActionId)
    (circle : List ActionId), calls.IsWay (a :: way) →
      calls.search steps way clear a = .error circle → Precedence.IsCircle calls.edges circle := by
  induction steps with
  | zero => exact fun _ _ _ _ _ => nofun
  | succ steps ih =>
      intro way clear a circle hway hstopped
      unfold search at hstopped
      by_cases hclear : clear.contains a = true
      · rw [if_pos hclear] at hstopped
        cases hstopped
      rw [if_neg hclear] at hstopped
      by_cases hseen : way.contains a = true
      · rw [if_pos hseen] at hstopped
        cases hstopped
        exact closedBy_isCircle hway (List.contains_iff_mem.mp hseen)
      rw [if_neg hseen] at hstopped
      rcases bind_eq_error_iff.mp hstopped with hbelow | ⟨below, -, hpure⟩
      · obtain ⟨⟨id, site⟩, hentry, clear', hstopped⟩ := exists_of_foldlM_eq_error hbelow
        obtain ⟨hsite, hcaller⟩ := mem_byCaller.mp hentry
        refine ih (a :: way) clear' site.callee circle (List.isChain_cons_cons.mpr ⟨?_, hway⟩)
          hstopped
        exact mem_edges.mpr ⟨id, site, hsite, hcaller, rfl⟩
      · cases hpure

theorem circle?_isCircle {actions : Nat} {circle : List ActionId}
    (h : calls.circle? actions = some circle) : Precedence.IsCircle calls.edges circle := by
  unfold circle? at h
  split at h
  · cases h
  · rename_i stopped hstopped
    cases h
    obtain ⟨a, -, clear, hsearch⟩ := exists_of_foldlM_eq_error hstopped
    exact search_isCircle _ [] clear a _ (List.isChain_singleton a) hsearch

/-- Where chains are bounded, no action leads to itself. -/
theorem acyclic_of_bounded {n : Nat} (h : ∀ {a m ids}, calls.Leads a ids m → ids.length ≤ n) :
    Precedence.Acyclic calls.edges := by
  refine acyclic_edges_iff.mpr fun a ids hleads => ?_
  obtain ⟨ids', hleads', hlength⟩ := hleads.exists_longer n
  exact absurd (h hleads') (Nat.not_le.mpr hlength)

/-- The search finds a circle if there is one. -/
theorem circle?_eq_none_iff {actions : Nat} (hcalls : calls.Between actions) :
    calls.circle? actions = none ↔ Precedence.Acyclic calls.edges := by
  refine ⟨fun hnone => ?_, fun hacyclic => ?_⟩
  · exact acyclic_of_bounded (leads_length_of_circle?_eq_none hcalls hnone)
  · cases hcircle : calls.circle? actions with
    | none => rfl
    | some circle => exact absurd hacyclic (circle?_isCircle hcircle).not_acyclic

end Calls

/-! ### The answer -/

namespace Reach

variable {plan : Plan} {reach : Reach}

/-- The paths of an action are all chains of calls that start at it, each listed once; and it stands
for the transactions that such a chain leads to it from, and for itself if it is one. -/
structure Enumerates (plan : Plan) (reach : Reach) : Prop where
  mem_pathsOf : ∀ a path, path ∈ reach.pathsOf a ↔ plan.calls.Leads a path.sites path.method
  nodup : ∀ a, (reach.pathsOf a).Nodup
  mem_standsFor : ∀ a t, t ∈ reach.standsFor a ↔
    t ∈ plan.roster.transactions.map Prod.fst ∧ (t = a ∨ ∃ ids, plan.calls.Leads t ids a)
  ascending : ∀ a, (reach.standsFor a).Pairwise (· < ·)

theorem standsFor_ascending (a : ActionId) : (reach.standsFor a).Pairwise (· < ·) :=
  (List.pairwise_map.mpr (Roster.entries_ascending.filter _)).filter _

theorem ofPlan_enumerates (h : ofPlan plan = .ok reach) : reach.Enumerates plan := by
  have hfollowed := ofPlan_followed h
  refine ⟨fun a path => hfollowed.mem_pathsOf, ofPlan_nodup h, fun a t => ?_, standsFor_ascending⟩
  rw [Reach.mem_standsFor, hfollowed.carries_iff, hfollowed.plan_eq]

/-- **Call paths are found exactly if the calls run in no circle.**  Where the calls of a plan are
between its actions, the plan is answered with all chains of its calls, each once, and otherwise the
fault names the actions of a circle. -/
theorem ofPlan_exact (hbetween : plan.calls.Between plan.roster.size) :
    ((∃ reach, ofPlan plan = .ok reach) ↔ Precedence.Acyclic plan.calls.edges) ∧
    (∀ reach, ofPlan plan = .ok reach → reach.Enumerates plan) ∧
    ∀ fault, ofPlan plan = .error fault → ∃ circle,
      fault = .callCycle (circle.map plan.name) ∧
        Precedence.IsCircle plan.calls.edges circle := by
  have hanswer := ofPlan_eq hbetween
  rw [← Calls.circle?_eq_none_iff hbetween]
  refine ⟨⟨fun hok => ?_, fun hnone => ?_⟩, fun reach => ofPlan_enumerates, fun fault hfault => ?_⟩
  · obtain ⟨reach, hreach⟩ := hok
    exact (ofPlan_eq_ok hreach).2.1
  · rw [hnone] at hanswer
    exact ⟨_, hanswer⟩
  · cases hcircle : plan.calls.circle? plan.roster.size with
    | none =>
        rw [hanswer, hcircle] at hfault
        cases hfault
    | some circle =>
        rw [hanswer, hcircle] at hfault
        cases hfault
        exact ⟨circle, rfl, Calls.circle?_isCircle hcircle⟩

/-- Two transactions and three methods, with the given calls. -/
def layered (calls : List (ActionId × ActionId)) : Plan where
  blocks := .empty
  roster := ["left", "right", "bottom"].foldl (fun roster name => roster.push
    ⟨name, name, none, 0, 0, .method ⟨.empty, .empty, false, false, none, none⟩⟩)
    (Contention.crew ["top", "clock"])
  calls := ⟨(calls.map fun (caller, callee) => ⟨caller, callee, 0, .empty⟩).toArray⟩
  couplings := .empty

/-- The bottom is reached on two ways. -/
def diamondPlan : Plan := layered [(0, 2), (0, 3), (2, 4), (3, 4)]

/-- The bottom calls back. -/
def ringPlan : Plan := layered [(0, 2), (2, 4), (4, 2)]

theorem diamond_exact :
    (∃ reach, diamondPlan.calls.Between diamondPlan.roster.size ∧ ofPlan diamondPlan = .ok reach ∧
      reach.pathsOf 0 = [⟨2, [0]⟩, ⟨4, [0, 2]⟩, ⟨3, [1]⟩, ⟨4, [1, 3]⟩] ∧ reach.standsFor 4 = [0] ∧
      Precedence.Acyclic diamondPlan.calls.edges ∧ reach.Enumerates diamondPlan) ∧
    ∃ circle, ringPlan.calls.Between ringPlan.roster.size ∧
      ofPlan ringPlan = .error (.callCycle ["left", "bottom", "left"]) ∧
      circle.map ringPlan.name = ["left", "bottom", "left"] ∧
      Precedence.IsCircle ringPlan.calls.edges circle := by
  refine ⟨?_, ?_⟩
  · have hbetween : diamondPlan.calls.Between diamondPlan.roster.size :=
      Calls.between_iff.mpr (by decide)
    have hpasses : (ofPlan diamondPlan).toOption.any (fun reach =>
        reach.pathsOf 0 == [⟨2, [0]⟩, ⟨4, [0, 2]⟩, ⟨3, [1]⟩, ⟨4, [1, 3]⟩] &&
          reach.standsFor 4 == [0]) = true := by
      decide +kernel
    obtain ⟨hiff, hall, -⟩ := ofPlan_exact hbetween
    cases hreach : ofPlan diamondPlan with
    | error fault =>
        rw [hreach] at hpasses
        cases hpasses
    | ok reach =>
        rw [hreach] at hpasses
        obtain ⟨hpaths, hstands⟩ := Bool.and_eq_true_iff.mp hpasses
        exact ⟨reach, hbetween, rfl, eq_of_beq hpaths, eq_of_beq hstands, hiff.mp ⟨reach, hreach⟩,
          hall reach hreach⟩
  · have hbetween : ringPlan.calls.Between ringPlan.roster.size :=
      Calls.between_iff.mpr (by decide)
    have hrefused : ofPlan ringPlan = .error (.callCycle ["left", "bottom", "left"]) := by
      rw [ofPlan_eq hbetween]
      rfl
    obtain ⟨-, -, hfault⟩ := ofPlan_exact hbetween
    obtain ⟨circle, hnames, hcircle⟩ := hfault _ hrefused
    exact ⟨circle, hbetween, hrefused, (Fault.callCycle.inj hnames).symm, hcircle⟩

end Reach

end Interlock
