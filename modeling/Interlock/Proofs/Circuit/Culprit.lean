/-
Which node is named for a loop.

Every loop passes through a wire, since any other gate reads only what was there before it.  Inputs
read nothing, so the nodes with a name that the walk leaves waiting are wires, and there is one if
there is a loop.  The first of them is named.  It is behind a loop, but need not be on one: a wire
that is older than all wires on loops, and only reads what comes from one, is named in their place.
-/
import Mathlib.Data.Nat.Find
import Interlock.Proofs.Circuit.Loop

namespace Interlock.Circuit

variable {c : Circuit} {id : NodeId}

/-- The node is a wire of the name. -/
def WireNamed (c : Circuit) (name : String) (id : NodeId) : Prop :=
  ∃ w driver, c.nodes[id]? = some ⟨w, .wire name driver⟩

theorem WireNamed.label_eq {name : String} (h : c.WireNamed name id) : c.label id = name := by
  obtain ⟨w, driver, hnode⟩ := h
  simp [label, hnode, Gate.name?]

/-! ### The wires of a loop -/

/-- A node that is no wire has a larger number than what it reads. -/
theorem WellFormed.wireNamed_or_lt (h : c.WellFormed) {o : NodeId} (hreads : c.Reads o id) :
    (∃ name, c.WireNamed name id) ∨ o < id := by
  have hid : id < c.nodes.size := hreads.lt_size
  have hnode := Array.getElem?_eq_getElem hid
  by_cases hwire : ∃ name driver, c.nodes[id].gate = .wire name driver
  · obtain ⟨name, driver, hgate⟩ := hwire
    exact .inl ⟨name, c.nodes[id].width, driver, by rw [hnode, ← hgate]⟩
  · refine .inr (h.earlier id _ hnode (fun name driver hgate => hwire ⟨name, driver, hgate⟩) o ?_)
    rwa [Reads, operandsOf_of_node hnode] at hreads

/-- What does not pass through a wire leads to a larger number. -/
theorem WellFormed.wire_between (h : c.WellFormed) {a b : NodeId}
    (hwaits : Relation.TransGen c.Reads a b) :
    (∃ o name, c.WireNamed name o ∧ Relation.TransGen c.Reads a o ∧
      Relation.ReflTransGen c.Reads o b) ∨ a < b := by
  induction hwaits with
  | single hreads =>
      rcases h.wireNamed_or_lt hreads with ⟨name, hwire⟩ | hlt
      · exact .inl ⟨_, name, hwire, .single hreads, .refl⟩
      · exact .inr hlt
  | tail hwaits hreads ih =>
      rcases ih with ⟨o, name, hwire, hto, hfrom⟩ | hlt
      · exact .inl ⟨o, name, hwire, hto, hfrom.tail hreads⟩
      · rcases h.wireNamed_or_lt hreads with ⟨name, hwire⟩ | hlt'
        · exact .inl ⟨_, name, hwire, hwaits.tail hreads, .refl⟩
        · exact .inr (hlt.trans hlt')

/-- Every loop passes through a wire. -/
theorem WellFormed.exists_wire_onLoop (h : c.WellFormed) (hloop : c.OnLoop id) :
    ∃ o name, c.WireNamed name o ∧ c.OnLoop o := by
  rcases h.wire_between hloop with ⟨o, name, hwire, hto, hfrom⟩ | hlt
  · exact ⟨o, name, hwire, .trans_right hfrom hto⟩
  · exact absurd hlt (Nat.lt_irrefl _)

/-- A node behind a loop has a name only if it is a wire. -/
theorem BehindLoop.wireNamed_iff (h : c.BehindLoop id) {name : String} :
    c.WireNamed name id ↔ c.nodes[id]?.bind (·.gate.name?) = some name := by
  obtain ⟨o, -, hreads⟩ := h.exists_reads
  have hid : id < c.nodes.size := hreads.lt_size
  have hnode := Array.getElem?_eq_getElem hid
  rw [Reads, operandsOf_of_node hnode] at hreads
  unfold WireNamed
  rw [hnode]
  generalize c.nodes[id] = node at hreads ⊢
  obtain ⟨width, gate⟩ := node
  cases gate <;> simp_all [Gate.name?, Gate.operands]

/-! ### The first wire behind a loop -/

/-- The node is a wire of the name, is behind a loop, and no wire of smaller number is. -/
structure FirstBehindLoop (c : Circuit) (name : String) (id : NodeId) : Prop where
  wire : c.WireNamed name id
  behind : c.BehindLoop id
  first : ∀ o < id, ∀ other, c.WireNamed other o → ¬ c.BehindLoop o

theorem WellFormed.exists_firstBehindLoop (h : c.WellFormed) (hloop : c.OnLoop id) :
    ∃ name first, c.FirstBehindLoop name first := by
  classical
  have hexists : ∃ o, (∃ name, c.WireNamed name o) ∧ c.BehindLoop o := by
    obtain ⟨o, name, hwire, hon⟩ := h.exists_wire_onLoop hloop
    exact ⟨o, ⟨name, hwire⟩, hon.behindLoop⟩
  obtain ⟨⟨name, hwire⟩, hbehind⟩ := Nat.find_spec hexists
  exact ⟨name, Nat.find hexists, hwire, hbehind, fun o ho other hother hbehind =>
    Nat.find_min hexists ho ⟨⟨other, hother⟩, hbehind⟩⟩

/-- Of the nodes left waiting, the first that has a name is the first wire behind a loop. -/
theorem FirstBehindLoop.culprit_eq {name : String} (hfirst : c.FirstBehindLoop name id)
    (h : c.WellFormed) : c.culprit c.progressEnd.waiting = name := by
  have hid : id < c.size := by
    obtain ⟨w, driver, hnode⟩ := hfirst.wire
    exact (Array.getElem?_eq_some_iff.mp hnode).1
  have hnamed : ((List.range c.size).filter (0 < c.progressEnd.waiting.getD · 0)).find?
      (fun id => (c.nodes[id]?.bind (·.gate.name?)).isSome) = some id := by
    rw [List.find?_filter, List.find?_range_eq_some]
    refine ⟨?_, List.mem_range.mpr hid, fun o ho => ?_⟩
    · rw [hfirst.behind.wireNamed_iff.mp hfirst.wire]
      exact decide_eq_true ⟨decide_eq_true ((h.waiting_pos_iff hid).mpr hfirst.behind), rfl⟩
    · by_cases hbehind : c.BehindLoop o
      · have hnone : c.nodes[o]?.bind (·.gate.name?) = none := by
          refine Option.eq_none_iff_forall_ne_some.mpr fun other hother => ?_
          exact hfirst.first o ho other (hbehind.wireNamed_iff.mpr hother) hbehind
        rw [hnone]
        simp
      · rw [decide_eq_false (mt (h.waiting_pos_iff (ho.trans hid)).mp hbehind)]
        rfl
  unfold culprit
  dsimp only
  rw [hnamed]
  exact hfirst.wire.label_eq

/-- **A loop is reported under the name of the first wire behind a loop.**  Whatever requests built
the circuit, the report is made exactly if every wire is driven and there is a wire behind a loop,
and the name is that of the one of smallest number, on a loop or not. -/
theorem loop_reported_iff (h : c.Built) {label : String} :
    c.evaluationOrder = .error (.combinationalLoop label) ↔
      (∀ id, ¬ c.Undriven id) ∧ ∃ id, c.FirstBehindLoop label id := by
  rcases h.wellFormed.evaluationOrder_cases with
    ⟨name, hfirst, hanswer⟩ | ⟨hdriven, hnone, order, hanswer⟩ | ⟨hdriven, ⟨id, hloop⟩, hanswer⟩
  · obtain ⟨id, hid⟩ := hfirst.exists_undriven
    rw [hanswer]
    exact ⟨nofun, fun hboth => absurd hid (hboth.1 id)⟩
  · rw [hanswer]
    refine ⟨nofun, fun hboth => ?_⟩
    obtain ⟨-, id, hfirst⟩ := hboth
    obtain ⟨o, hloop, -⟩ := hfirst.behind
    exact absurd hloop (hnone o)
  · rw [hanswer]
    refine ⟨fun heq => ?_, fun hboth => ?_⟩
    · obtain ⟨name, first, hfirst⟩ := h.wellFormed.exists_firstBehindLoop hloop
      rw [hfirst.culprit_eq h.wellFormed] at heq
      cases heq
      exact ⟨hdriven, first, hfirst⟩
    · obtain ⟨-, first, hfirst⟩ := hboth
      rw [hfirst.culprit_eq h.wellFormed]

/-- A wire that an inverter of the wire itself drives. -/
def feedback : Circuit := ⟨#[⟨1, .wire "feedback" (some 1)⟩, ⟨1, .unary .not 0⟩]⟩

theorem feedback_built : Built feedback := by
  have hsteps := Steps.step (.step (.step (.refl empty) (.wire _ "feedback" 1))
    (.unary _ .not 0)) (.drive _ 0 1)
  refine (congrArg (Steps empty) ?_).mpr hsteps
  decide +kernel

theorem feedback_reported :
    feedback.Built ∧ feedback.evaluationOrder = .error (.combinationalLoop "feedback") ∧
      ∃ id, feedback.FirstBehindLoop "feedback" id := by
  have hanswer : feedback.evaluationOrder = .error (.combinationalLoop "feedback") := by
    decide +kernel
  exact ⟨feedback_built, hanswer, ((loop_reported_iff feedback_built).mp hanswer).2⟩

/-- A wire that drives itself, and an older wire that it drives too. -/
def tappedRing : Circuit := ⟨#[⟨1, .wire "tap" (some 1)⟩, ⟨1, .wire "ring" (some 1)⟩]⟩

theorem tappedRing_built : Built tappedRing := by
  have hsteps := Steps.step (.step (.step (.step (.refl empty) (.wire _ "tap" 1))
    (.wire _ "ring" 1)) (.drive _ 1 1)) (.drive _ 0 1)
  refine (congrArg (Steps empty) ?_).mpr hsteps
  decide +kernel

/-- Only the ring is on a loop, but the tap is named. -/
theorem tap_blamed : tappedRing.Built ∧
    tappedRing.evaluationOrder = .error (.combinationalLoop "tap") ∧
      (∃ id, tappedRing.OnLoop id) ∧ ∀ id, tappedRing.OnLoop id → tappedRing.label id ≠ "tap" := by
  have hring : tappedRing.Reads 1 1 := List.mem_singleton_self 1
  have honly : ∀ {o id : NodeId}, tappedRing.Reads o id → o = 1 := by
    intro o id hreads
    match id, hreads with
    | 0, hreads | 1, hreads => exact List.mem_singleton.mp hreads
  refine ⟨tappedRing_built, by decide +kernel, ⟨1, .single hring⟩, fun id hloop => ?_⟩
  obtain ⟨o, hreads, -⟩ := Relation.TransGen.head'_iff.mp hloop
  rw [honly hreads]
  decide +kernel

end Interlock.Circuit
