/-
Designs that can be declared.

A design is put together by declarations and by requests to its circuit, in any order, of which
any may be refused.  Of the requests, and of the validators and combiners that a design brings
along, nothing is known but that they grow a circuit.

Finishing a design relies on little: ready and enabling signals are bits, what is called is a
method, validators and combiners grow the circuit, and arguments that nothing combines are those of
one caller at a time.  Every declaration checks its part of this before it adds to the plan, and
since a refused one may have come halfway, this is shown of the state a declaration leaves behind
and not of its answer.
-/
import Interlock.Declarations
import Interlock.Proofs.Answer
import Interlock.Proofs.Ascending
import Interlock.Proofs.Circuit.Growth

namespace Interlock

/-! ### Couplings -/

namespace Couplings

variable {couplings couplings' couplings'' : Couplings} {roster : Roster}

/-- What is on record about pairs of actions stays there. -/
structure GrowsTo (couplings couplings' : Couplings) : Prop where
  relations : couplings.relations ⊆ couplings'.relations
  simultaneous : couplings.simultaneous ⊆ couplings'.simultaneous
  independent : couplings.independent ⊆ couplings'.independent

instance : LE Couplings := ⟨GrowsTo⟩

theorem le_refl (couplings : Couplings) : couplings ≤ couplings :=
  ⟨fun _ h => h, fun _ h => h, fun _ h => h⟩

theorem le_trans (h : couplings ≤ couplings') (h' : couplings' ≤ couplings'') :
    couplings ≤ couplings'' :=
  ⟨fun _ hr => h'.relations (h.relations hr), fun _ hp => h'.simultaneous (h.simultaneous hp),
    fun _ hp => h'.independent (h.independent hp)⟩

theorem relate_eq_ok {relation : Relation}
    (h : couplings.relate roster relation = .ok couplings') :
    couplings' = { couplings with relations := couplings.relations ++ [relation] } := by
  unfold relate at h
  obtain ⟨_, -, h⟩ := bind_eq_ok_iff.mp h
  obtain ⟨_, -, h⟩ := bind_eq_ok_iff.mp h
  dsimp only at h
  split at h
  · cases h
  · exact (Except.ok.inj h).symm

theorem relate_le {relation : Relation} (h : couplings.relate roster relation = .ok couplings') :
    couplings ≤ couplings' := by
  rw [relate_eq_ok h]
  exact ⟨List.subset_append_left _ _, fun _ hp => hp, fun _ hp => hp⟩

theorem join_eq_ok {a : ActionId} {others : List ActionId}
    (h : couplings.join roster a others = .ok couplings') :
    couplings' =
      { couplings with simultaneous := couplings.simultaneous ++ others.map (a, ·) } := by
  unfold join at h
  obtain ⟨_, -, h⟩ := bind_eq_ok_iff.mp h
  exact (Except.ok.inj h).symm

theorem join_le {a : ActionId} {others : List ActionId}
    (h : couplings.join roster a others = .ok couplings') : couplings ≤ couplings' := by
  rw [join_eq_ok h]
  exact ⟨fun _ hr => hr, List.subset_append_left _ _, fun _ hp => hp⟩

theorem acknowledge_le {a b : ActionId}
    (h : couplings.acknowledge roster a b = .ok couplings') : couplings ≤ couplings' := by
  unfold acknowledge at h
  obtain ⟨_, -, h⟩ := bind_eq_ok_iff.mp h
  obtain ⟨_, -, h⟩ := bind_eq_ok_iff.mp h
  cases h
  exact ⟨fun _ hr => hr, fun _ hp => hp, fun _ hp => hp⟩

theorem mem_foldl_insert {pair : Nat × Nat} (entries : List (Nat × Nat)) :
    ∀ known : List (Nat × Nat), pair ∈ entries.foldl
        (fun known (x, y) => insertAscending (pairLt natLt natLt) (ordered x y) known) known ↔
      pair ∈ known ∨ ∃ x y, (x, y) ∈ entries ∧ pair = ordered x y := by
  induction entries with
  | nil => intro known; simp
  | cons entry rest ih =>
      intro known
      obtain ⟨u, v⟩ := entry
      rw [List.foldl_cons, ih,
        mem_insertAscending (pairLt_separating natLt_separating natLt_separating)]
      simp only [List.mem_cons, Prod.mk.injEq]
      constructor
      · rintro ((h | h) | ⟨x, y, hxy, h⟩)
        · exact .inr ⟨u, v, .inl ⟨rfl, rfl⟩, h⟩
        · exact .inl h
        · exact .inr ⟨x, y, .inr hxy, h⟩
      · rintro (h | ⟨x, y, ⟨rfl, rfl⟩ | hxy, h⟩)
        · exact .inl (.inr h)
        · exact .inl (.inl h)
        · exact .inr ⟨x, y, hxy, h⟩

/-- Who is tied is on the roster, so that nothing is in the way of keeping them apart. -/
theorem keepApart_of_join {a : ActionId} {others : List ActionId}
    (h : couplings.join roster a others = .ok couplings') :
    couplings'.keepApart roster others = .ok (couplings'.separate others) := by
  unfold join at h
  obtain ⟨_, hknown, -⟩ := bind_eq_ok_iff.mp h
  have hothers : others.forM roster.check = .ok () :=
    forM_eq_ok_iff.mpr fun x hx => forM_eq_ok_iff.mp hknown x (List.mem_cons_of_mem _ hx)
  unfold keepApart
  rw [hothers]
  rfl

/-- The pairs of an offer are those of the others that differ. -/
theorem offer_independent {a : ActionId} {others : List ActionId}
    (h : couplings.offer roster a others = .ok couplings') {pair : ActionId × ActionId} :
    pair ∈ couplings'.independent ↔ pair ∈ couplings.independent ∨
      ∃ x y, (x, y) ∈ pairs others ∧ x ≠ y ∧ pair = ordered x y := by
  unfold offer at h
  obtain ⟨joined, hjoin, h⟩ := bind_eq_ok_iff.mp h
  rw [keepApart_of_join hjoin] at h
  obtain rfl := join_eq_ok hjoin
  cases h
  unfold separate
  dsimp only
  rw [mem_foldl_insert]
  simp only [List.mem_filter, bne_iff_ne, and_assoc]

theorem offer_simultaneous {a : ActionId} {others : List ActionId}
    (h : couplings.offer roster a others = .ok couplings') :
    couplings'.simultaneous = couplings.simultaneous ++ others.map (a, ·) := by
  unfold offer at h
  obtain ⟨joined, hjoin, h⟩ := bind_eq_ok_iff.mp h
  rw [keepApart_of_join hjoin] at h
  obtain rfl := join_eq_ok hjoin
  cases h
  rfl

theorem offer_le {a : ActionId} {others : List ActionId}
    (h : couplings.offer roster a others = .ok couplings') : couplings ≤ couplings' := by
  have hpairs : couplings.independent ⊆ couplings'.independent :=
    fun _ hpair => (offer_independent h).mpr (.inl hpair)
  have htogether : couplings.simultaneous ⊆ couplings'.simultaneous := by
    rw [offer_simultaneous h]
    exact List.subset_append_left _ _
  unfold offer at h
  obtain ⟨joined, hjoin, h⟩ := bind_eq_ok_iff.mp h
  rw [keepApart_of_join hjoin] at h
  obtain rfl := join_eq_ok hjoin
  cases h
  exact ⟨fun _ hr => hr, htogether, hpairs⟩

/-- Any two different actions among the others are alternatives. -/
theorem mem_offer_independent {a : ActionId} {others : List ActionId}
    (h : couplings.offer roster a others = .ok couplings') {x y : ActionId} (hx : x ∈ others)
    (hy : y ∈ others) (hne : x ≠ y) : ordered x y ∈ couplings'.independent := by
  rw [offer_independent h]
  rcases mem_pairs_or hx hy hne with hpair | hpair
  · exact .inr ⟨x, y, hpair, hne, rfl⟩
  · exact .inr ⟨y, x, hpair, hne.symm, ordered_comm x y⟩

end Couplings

/-! ### What finishing a design relies on -/

/-- What is relied on of an action. -/
structure Action.Sound (circuit : Circuit) (action : Action) : Prop where
  ready : circuit.width action.ready = .ok 1
  validator : ∀ validator, action.validator? = some validator →
    ∀ arguments, (validator arguments).Grows
  combiner : ∀ combiner, action.combiner? = some combiner →
    ∀ arguments runs, (combiner arguments runs).Grows
  exclusive : action.combiner? = none → action.dataIn.fields ≠ [] → action.isNonexclusive = false

/-- What is relied on of a call site. -/
structure CallSite.Sound (circuit : Circuit) (roster : Roster) (site : CallSite) : Prop where
  enable : circuit.width site.enable = .ok 1
  callee : ∃ method, roster.actions[site.callee]? = some method ∧ method.isMethod = true

namespace Declarations

/-- What is relied on of a design. -/
structure Sound (d : Declarations) : Prop where
  actions : ∀ (id : ActionId) (action : Action), d.plan.roster.actions[id]? = some action →
    action.Sound d.circuit
  sites : ∀ (id : CallId) (site : CallSite), d.plan.calls.sites[id]? = some site →
    site.Sound d.circuit d.plan.roster

/-- What was built stays, and so does what was said about pairs of actions. -/
structure GrowsTo (d d' : Declarations) : Prop where
  circuit : d.circuit ≤ d'.circuit
  couplings : d.plan.couplings ≤ d'.plan.couplings

instance : LE Declarations := ⟨GrowsTo⟩

variable {d d' d'' : Declarations}

theorem le_refl (d : Declarations) : d ≤ d := ⟨d.circuit.le_refl, d.plan.couplings.le_refl⟩

theorem le_trans (h : d ≤ d') (h' : d' ≤ d'') : d ≤ d'' :=
  ⟨Circuit.le_trans h.circuit h'.circuit, Couplings.le_trans h.couplings h'.couplings⟩

theorem empty_sound : empty.Sound :=
  ⟨fun id action h => by simp [empty, Plan.empty, Roster.empty] at h,
    fun id site h => by simp [empty, Plan.empty, Calls.empty] at h⟩

theorem Sound.grow (h : d.Sound) {c : Circuit} (hle : d.circuit ≤ c) :
    Sound { d with circuit := c } where
  actions := by
    intro id action haction
    obtain ⟨hready, hvalidator, hcombiner, hexclusive⟩ := h.actions id action haction
    exact ⟨Circuit.width_of_le hle hready, hvalidator, hcombiner, hexclusive⟩
  sites := by
    intro id site hsite
    obtain ⟨henable, hcallee⟩ := h.sites id site hsite
    exact ⟨Circuit.width_of_le hle henable, hcallee⟩

theorem Sound.enrol (h : d.Sound) {action : Action} (haction : action.Sound d.circuit) :
    Sound { d with plan := { d.plan with roster := d.plan.roster.push action } } where
  actions := by
    intro id other hother
    rw [Roster.push, Array.getElem?_push] at hother
    split at hother
    · cases hother
      exact haction
    · exact h.actions id other hother
  sites := by
    intro id site hsite
    obtain ⟨henable, method, hmethod, hrole⟩ := h.sites id site hsite
    obtain ⟨hlt, -⟩ := Array.getElem?_eq_some_iff.mp hmethod
    refine ⟨henable, method, ?_, hrole⟩
    rw [Roster.push, Array.getElem?_push_lt hlt, ← hmethod, Array.getElem?_eq_getElem hlt]

theorem Sound.addCall (h : d.Sound) {site : CallSite}
    (hsite : site.Sound d.circuit d.plan.roster) :
    Sound { d with plan := { d.plan with calls := d.plan.calls.push site } } where
  actions := h.actions
  sites := by
    intro id other hother
    rw [Calls.push, Array.getElem?_push] at hother
    split at hother
    · cases hother
      exact hsite
    · exact h.sites id other hother

end Declarations

/-! ### What a declaration keeps -/

namespace Declare

variable {α β : Type} {d : Declarations}

/-- Whether it is answered or refused, a declaration leaves a sound design sound and what is there
as it is; if it is answered, its answer has a property. -/
def Keeps (request : Declare α) (d : Declarations) (P : α → Declarations → Prop) : Prop :=
  d.Sound → ∀ answer d', request.run.run d = (answer, d') →
    d'.Sound ∧ d ≤ d' ∧ ∀ a, answer = .ok a → P a d'

variable {P Q : α → Declarations → Prop} {request : Declare α}

theorem Keeps.mono (h : request.Keeps d P) (hPQ : ∀ a d', d ≤ d' → P a d' → Q a d') :
    request.Keeps d Q := by
  intro hsound answer d' hrun
  obtain ⟨hsound', hle, hP⟩ := h hsound answer d' hrun
  exact ⟨hsound', hle, fun a ha => hPQ a d' hle (hP a ha)⟩

theorem pure_keeps {a : α} (h : P a d) : (pure a : Declare α).Keeps d P := by
  intro hsound answer d' hrun
  cases hrun
  refine ⟨hsound, d.le_refl, fun b hb => ?_⟩
  cases hb
  exact h

theorem throw_keeps (fault : Fault) : (throw fault : Declare α).Keeps d P := by
  intro hsound answer d' hrun
  cases hrun
  exact ⟨hsound, d.le_refl, fun b hb => nomatch hb⟩

theorem bind_keeps {x : Declare β} {f : β → Declare α} {R : β → Declarations → Prop}
    (hx : x.Keeps d R) (hf : ∀ b d', d ≤ d' → R b d' → (f b).Keeps d' P) :
    (x >>= f).Keeps d P := by
  intro hsound answer d' hrun
  rw [run_bind] at hrun
  rcases hfirst : x.run.run d with ⟨fault | b, d₁⟩
  · rw [hfirst] at hrun
    cases hrun
    obtain ⟨hsound₁, hle, -⟩ := hx hsound _ _ hfirst
    exact ⟨hsound₁, hle, fun a ha => nomatch ha⟩
  · rw [hfirst] at hrun
    obtain ⟨hsound₁, hle, hR⟩ := hx hsound _ _ hfirst
    obtain ⟨hsound', hle', hP⟩ := hf b d₁ hle (hR b rfl) hsound₁ answer d' hrun
    exact ⟨hsound', Declarations.le_trans hle hle', hP⟩

theorem ofExcept_keeps (answer : Except Fault α) :
    (ofExcept answer : Declare α).Keeps d fun a d' => answer = .ok a ∧ d' = d := by
  cases answer with
  | ok a => exact pure_keeps ⟨rfl, rfl⟩
  | error fault => exact throw_keeps fault

theorem get_keeps : (get : Declare Declarations).Keeps d fun state d' => state = d ∧ d' = d := by
  intro hsound answer d' hrun
  cases hrun
  refine ⟨hsound, d.le_refl, fun b hb => ?_⟩
  cases hb
  exact ⟨rfl, rfl⟩

theorem plan_keeps : plan.Keeps d fun plan d' => plan = d.plan ∧ d' = d :=
  bind_keeps get_keeps fun _ _ _ h => pure_keeps ⟨by rw [h.1], h.2⟩

theorem setPlan_keeps {plan : Plan} (hsound : d.Sound → Declarations.Sound ⟨d.circuit, plan⟩)
    (hcouplings : d.plan.couplings ≤ plan.couplings) :
    (setPlan plan).Keeps d fun _ d' => d' = ⟨d.circuit, plan⟩ := by
  intro h answer d' hrun
  cases hrun
  exact ⟨hsound h, ⟨d.circuit.le_refl, hcouplings⟩, fun _ _ => rfl⟩

theorem run_logic (request : Build α) (d : Declarations) :
    (logic request).run.run d = (Fault.ofCircuit (request.run.run d.circuit).1,
      { d with circuit := (request.run.run d.circuit).2 }) := by
  show (set (⟨(request.run.run d.circuit).2, d.plan⟩ : Declarations) >>= fun _ =>
    (ofExcept (Fault.ofCircuit (request.run.run d.circuit).1) : Declare α)).run.run d = _
  rcases (request.run.run d.circuit).1 with fault | a <;> rfl

theorem logic_keeps {request : Build α} (h : request.Grows) :
    (logic request).Keeps d fun a d' =>
      d'.plan = d.plan ∧ request.Yields d.circuit a d'.circuit := by
  intro hsound answer d' hrun
  rw [run_logic] at hrun
  have hle := h d.circuit
  cases hrun
  refine ⟨hsound.grow hle, ⟨hle, d.plan.couplings.le_refl⟩, fun a ha => ⟨rfl, ?_⟩⟩
  unfold Build.Yields
  rcases hrequest : request.run.run d.circuit with ⟨fault | b, c⟩
  · rw [hrequest] at ha
    cases ha
  · rw [hrequest] at ha
    cases ha
    rfl

/-! ### Every declaration -/

theorem expectBit_grows (op : String) (node : NodeId) : (expectBit op node).Grows :=
  Build.matchWidth_grows op 1 node

/-- Only a bit is let through. -/
theorem expectBit_yields {op : String} {node : NodeId} {c c' : Circuit}
    (h : (expectBit op node).Yields c () c') : c.width node = .ok 1 ∧ c' = c := by
  obtain ⟨w, c₁, hwidth, hmatch⟩ := Build.yields_bind_iff.mp h
  rw [Build.Yields, Build.run_width] at hwidth
  obtain ⟨hw, rfl⟩ := Prod.mk.inj hwidth
  unfold Build.matchWidths at hmatch
  split at hmatch
  · rename_i hone
    rw [hw, ← hone]
    exact ⟨rfl, (Build.yields_pure_iff.mp hmatch).2⟩
  · exact absurd hmatch Build.not_yields_throw

theorem qualify_keeps (name : String) (owner : Option BlockId) :
    (qualify name owner).Keeps d fun _ d' => d' = d := by
  refine bind_keeps plan_keeps fun plan d₁ _ hplan => ?_
  obtain ⟨rfl, rfl⟩ := hplan
  refine bind_keeps (ofExcept_keeps _) fun qualified d₂ _ hqualified => ?_
  obtain ⟨-, rfl⟩ := hqualified
  dsimp only
  split
  · exact bind_keeps (throw_keeps _) fun _ d₃ _ h => pure_keeps h
  · exact pure_keeps rfl

theorem enrol_keeps {action : Action} (haction : action.Sound d.circuit) :
    (enrol action).Keeps d fun _ _ => True := by
  refine bind_keeps plan_keeps fun plan d₁ _ hplan => ?_
  obtain ⟨rfl, rfl⟩ := hplan
  dsimp only
  split
  · exact bind_keeps (throw_keeps (P := fun _ _ => False) _) fun _ _ _ h => h.elim
  · refine bind_keeps (setPlan_keeps (fun h => h.enrol haction) (Couplings.le_refl _))
      fun _ d₂ _ _ => ?_
    exact pure_keeps trivial

theorem block_keeps (name : String) (parent : Option BlockId) :
    (block name parent).Keeps d fun _ _ => True := by
  refine bind_keeps plan_keeps fun plan d₁ _ hplan => ?_
  obtain ⟨rfl, rfl⟩ := hplan
  refine bind_keeps (ofExcept_keeps _) fun answer d₂ _ hanswer => ?_
  obtain ⟨-, rfl⟩ := hanswer
  refine bind_keeps (setPlan_keeps (fun h => ⟨h.actions, h.sites⟩) (Couplings.le_refl _))
    fun _ _ _ _ => ?_
  exact pure_keeps trivial

theorem transaction_keeps (name : String) (owner : Option BlockId) (request : NodeId) :
    (transaction name owner request).Keeps d fun _ _ => True := by
  refine bind_keeps (logic_keeps (expectBit_grows _ _)) fun _ d₁ _ hrequest => ?_
  obtain ⟨hbit, hcircuit⟩ := expectBit_yields hrequest.2
  rw [← hcircuit] at hbit
  refine bind_keeps (qualify_keeps name owner) fun _ d₂ _ hqualify => ?_
  subst hqualify
  refine bind_keeps (logic_keeps (Build.wire_grows _ _)) fun _ d₃ hle _ => ?_
  refine enrol_keeps ⟨Circuit.width_of_le hle.circuit hbit, ?_, ?_, fun _ _ => rfl⟩
  · exact fun validator h => nomatch h
  · exact fun combiner h => nomatch h

theorem methodReady_keeps (ready : Option NodeId) :
    (logic (methodReady ready)).Keeps d fun node d' => d'.circuit.width node = .ok 1 := by
  cases ready with
  | none =>
      refine (logic_keeps Build.high_grows).mono fun node d' hle hhigh => ?_
      exact Circuit.width_eq_ok_iff.mpr ⟨_, Build.shared_yields hhigh.2, rfl⟩
  | some node =>
      refine (logic_keeps (Build.bind_grows (expectBit_grows _ _) fun _ =>
        Build.pure_grows node)).mono fun node' d' hle hready => ?_
      obtain ⟨_, c₁, hexpect, hpure⟩ := Build.yields_bind_iff.mp hready.2
      obtain ⟨rfl, hcircuit⟩ := Build.yields_pure_iff.mp hpure
      obtain ⟨hbit, rfl⟩ := expectBit_yields hexpect
      rw [hcircuit]
      exact hbit

theorem method_keeps {spec : MethodSpec}
    (hvalidator : ∀ validator, spec.validator = some validator →
      ∀ arguments, (validator arguments).Grows)
    (hcombiner : ∀ combiner, spec.combiner = some combiner →
      ∀ arguments runs, (combiner arguments runs).Grows) :
    (method spec).Keeps d fun _ _ => True := by
  refine bind_keeps (qualify_keeps _ _) fun _ d₁ _ hqualify => ?_
  subst hqualify
  dsimp only
  split
  · exact bind_keeps (throw_keeps (P := fun _ _ => False) _) fun _ _ _ h => h.elim
  · rename_i hcombines
    refine bind_keeps (methodReady_keeps spec.ready) fun ready d₂ _ hready => ?_
    refine bind_keeps (logic_keeps (Build.wire_grows _ _)) fun run d₃ hle₃ _ => ?_
    refine bind_keeps (logic_keeps (Build.wires_grows _ _)) fun dataIn d₄ hle₄ hdataIn => ?_
    refine bind_keeps (logic_keeps (Build.wires_grows _ _)) fun dataOut d₅ hle₅ _ => ?_
    have hle : d₂.circuit ≤ d₅.circuit :=
      Circuit.le_trans hle₃.circuit (Circuit.le_trans hle₄.circuit hle₅.circuit)
    refine bind_keeps (enrol_keeps ⟨Circuit.width_of_le hle hready, ?_, ?_, ?_⟩)
      fun _ _ _ _ => ?_
    · exact hvalidator
    · exact hcombiner
    · intro hnone hfields
      change spec.combiner = none at hnone
      change dataIn.fields ≠ [] at hfields
      show spec.nonexclusive = false
      have hinput : spec.input.isEmpty = false := by
        rw [Build.bundle_yields hdataIn.2] at hfields
        exact Bool.eq_false_iff.mpr fun hempty => hfields (List.isEmpty_iff.mp hempty)
      simpa [hinput, hnone] using hcombines
    · exact pure_keeps trivial

theorem defineOutput_keeps (method : ActionId) (value : Bundle) :
    (defineOutput method value).Keeps d fun _ _ => True := by
  refine bind_keeps plan_keeps fun plan d₁ _ _ => ?_
  refine bind_keeps (ofExcept_keeps _) fun action d₂ _ _ => ?_
  split
  · exact throw_keeps _
  · exact (logic_keeps (Build.driveAll_grows _ _)).mono fun _ _ _ _ => trivial

/-- What is called without a flaw is a method, under a bit. -/
theorem callFlaw_eq_none {circuit : Circuit} {caller callee : ActionId} {target : Action}
    {enable : NodeId} {arguments : Bundle}
    (h : callFlaw? circuit caller callee target enable arguments = none) :
    target.isMethod = true ∧ circuit.width enable = .ok 1 := by
  unfold callFlaw? at h
  split at h
  · cases h
  · rename_i interface hinterface
    split at h
    · cases h
    · split at h
      · cases h
      · rename_i henable
        refine ⟨by rw [Action.isMethod, hinterface]; rfl, ?_⟩
        exact (expectBit_yields (Prod.ext henable rfl)).1

theorem action_eq_ok {roster : Roster} {id : ActionId} {action : Action}
    (h : roster.action id = .ok action) : roster.actions[id]? = some action := by
  unfold Roster.action at h
  split at h
  · rename_i hsome
    rw [hsome, Except.ok.inj h]
  · cases h

theorem call_keeps (caller callee : ActionId) (enable : NodeId) (arguments : Bundle) :
    (call caller callee enable arguments).Keeps d fun _ _ => True := by
  refine bind_keeps get_keeps fun state d₁ _ hstate => ?_
  obtain ⟨rfl, rfl⟩ := hstate
  refine bind_keeps (ofExcept_keeps _) fun source d₂ _ hsource => ?_
  obtain ⟨-, rfl⟩ := hsource
  refine bind_keeps (ofExcept_keeps _) fun target d₃ _ htarget => ?_
  obtain ⟨htarget, rfl⟩ := htarget
  split
  · exact throw_keeps _
  · rename_i hflaw
    obtain ⟨hmethod, henable⟩ := callFlaw_eq_none hflaw
    dsimp only
    split
    · exact bind_keeps (throw_keeps (P := fun _ _ => False) _) fun _ _ _ h => h.elim
    · refine bind_keeps (setPlan_keeps (fun h => ?_) (Couplings.le_refl _)) fun _ _ _ _ => ?_
      · exact h.addCall ⟨henable, target, action_eq_ok htarget, hmethod⟩
      · exact pure_keeps trivial

theorem couple_keeps {change : Couplings → Roster → Except Fault Couplings}
    (hchange : ∀ couplings, change d.plan.couplings d.plan.roster = .ok couplings →
      d.plan.couplings ≤ couplings) :
    (couple change).Keeps d fun _ d' =>
      change d.plan.couplings d.plan.roster = .ok d'.plan.couplings := by
  refine bind_keeps plan_keeps fun plan d₁ _ hplan => ?_
  obtain ⟨rfl, rfl⟩ := hplan
  refine bind_keeps (ofExcept_keeps _) fun couplings d₂ _ hcouplings => ?_
  obtain ⟨hcouplings, rfl⟩ := hcouplings
  have hset : (setPlan { d₂.plan with couplings }).Keeps d₂ fun _ d' =>
      d' = ⟨d₂.circuit, { d₂.plan with couplings }⟩ :=
    setPlan_keeps (fun h => ⟨h.actions, h.sites⟩) (hchange couplings hcouplings)
  refine hset.mono fun _ d' _ hd' => ?_
  rw [hd']
  exact hcouplings

/-- A change of the couplings is made, or refused with everything as it was. -/
theorem run_couple (change : Couplings → Roster → Except Fault Couplings) (d : Declarations) :
    (couple change).run.run d = match change d.plan.couplings d.plan.roster with
      | .ok couplings => (.ok (), { d with plan := { d.plan with couplings } })
      | .error fault => (.error fault, d) := by
  have hplan : plan.run.run d = (.ok d.plan, d) := rfl
  rw [couple, run_bind, hplan]
  dsimp only
  rw [run_bind]
  cases change d.plan.couplings d.plan.roster with
  | ok couplings => rfl
  | error fault => rfl

/-- The two steps of an offer are one: the second is never refused. -/
theorem alternatives_eq (a : ActionId) (others : List ActionId) :
    alternatives a others = couple (·.offer · a others) := by
  funext d
  show (alternatives a others).run.run d = (couple (·.offer · a others)).run.run d
  rw [alternatives, run_bind, run_couple, run_couple]
  dsimp only
  rw [Couplings.offer]
  cases hjoin : d.plan.couplings.join d.plan.roster a others with
  | error fault => rfl
  | ok joined =>
      have hapart := Couplings.keepApart_of_join hjoin
      dsimp only [bind, Except.bind]
      rw [run_couple]
      dsimp only
      rw [hapart]

theorem alternatives_keeps (a : ActionId) (others : List ActionId) :
    (alternatives a others).Keeps d fun _ d' =>
      ∀ x ∈ others, ∀ y ∈ others, x ≠ y → ordered x y ∈ d'.plan.couplings.independent := by
  rw [alternatives_eq]
  refine (couple_keeps fun _ => Couplings.offer_le).mono fun _ d' _ hoffer x hx y hy hne => ?_
  exact Couplings.mem_offer_independent hoffer hx hy hne

/-- Actions that were declared to run together are on record. -/
theorem simultaneous_keeps (a : ActionId) (others : List ActionId) :
    (simultaneous a others).Keeps d fun _ d' =>
      ∀ o ∈ others, (a, o) ∈ d'.plan.couplings.simultaneous := by
  refine (couple_keeps fun _ => Couplings.join_le).mono fun _ d' _ hjoin o ho => ?_
  rw [Couplings.join_eq_ok hjoin]
  exact List.mem_append_right _ (List.mem_map.mpr ⟨o, ho, rfl⟩)

/-- So are an action and the alternatives that were offered to it. -/
theorem alternatives_join (a : ActionId) (others : List ActionId) :
    (alternatives a others).Keeps d fun _ d' =>
      ∀ o ∈ others, (a, o) ∈ d'.plan.couplings.simultaneous := by
  rw [alternatives_eq]
  refine (couple_keeps fun _ => Couplings.offer_le).mono fun _ d' _ hoffer o ho => ?_
  rw [Couplings.offer_simultaneous hoffer]
  exact List.mem_append_right _ (List.mem_map.mpr ⟨o, ho, rfl⟩)

/-- A conflict that was declared is on record. -/
theorem conflict_keeps (a b : ActionId) (priority : Priority) :
    (conflict a b priority).Keeps d fun _ d' =>
      Relation.conflict a b priority ∈ d'.plan.couplings.relations := by
  refine (couple_keeps fun _ => Couplings.relate_le).mono fun _ d' _ hrelate => ?_
  rw [Couplings.relate_eq_ok hrelate]
  exact List.mem_append_right _ (List.mem_singleton_self _)

end Declare

/-! ### Sequences of declarations -/

namespace Declarations

/-- One call of the designer, answered or refused: a request to the circuit or a declaration. -/
inductive Step : Declarations → Declarations → Prop
  | logic {α : Type} (d : Declarations) (request : Build α) (h : request.Grows) :
      Step d ((Declare.logic request).run.run d).2
  | block (d : Declarations) (name : String) (parent : Option BlockId) :
      Step d ((Declare.block name parent).run.run d).2
  | transaction (d : Declarations) (name : String) (owner : Option BlockId) (request : NodeId) :
      Step d ((Declare.transaction name owner request).run.run d).2
  | method (d : Declarations) (spec : MethodSpec)
      (hvalidator : ∀ validator, spec.validator = some validator →
        ∀ arguments, (validator arguments).Grows)
      (hcombiner : ∀ combiner, spec.combiner = some combiner →
        ∀ arguments runs, (combiner arguments runs).Grows) :
      Step d ((Declare.method spec).run.run d).2
  | defineOutput (d : Declarations) (method : ActionId) (value : Bundle) :
      Step d ((Declare.defineOutput method value).run.run d).2
  | call (d : Declarations) (caller callee : ActionId) (enable : NodeId) (arguments : Bundle) :
      Step d ((Declare.call caller callee enable arguments).run.run d).2
  | conflict (d : Declarations) (a b : ActionId) (priority : Priority) :
      Step d ((Declare.conflict a b priority).run.run d).2
  | before (d : Declarations) (a b : ActionId) : Step d ((Declare.before a b).run.run d).2
  | simultaneous (d : Declarations) (a : ActionId) (others : List ActionId) :
      Step d ((Declare.simultaneous a others).run.run d).2
  | alternatives (d : Declarations) (a : ActionId) (others : List ActionId) :
      Step d ((Declare.alternatives a others).run.run d).2
  | acknowledge (d : Declarations) (a b : ActionId) :
      Step d ((Declare.acknowledge a b).run.run d).2

/-- Any number of calls, one after the other. -/
inductive Steps : Declarations → Declarations → Prop
  | refl (d : Declarations) : Steps d d
  | step {d d' d'' : Declarations} : Steps d d' → Step d' d'' → Steps d d''

/-- A design that can be declared. -/
def Declared (d : Declarations) : Prop := Steps empty d

variable {d d' d'' : Declarations}

theorem sound_of_keeps {α : Type} {request : Declare α} {P : α → Declarations → Prop}
    (h : request.Keeps d P) (hsound : d.Sound) :
    (request.run.run d).2.Sound ∧ d ≤ (request.run.run d).2 :=
  ⟨(h hsound _ _ rfl).1, (h hsound _ _ rfl).2.1⟩

theorem sound_of_couple {change : Couplings → Roster → Except Fault Couplings}
    (hchange : ∀ {couplings roster couplings'}, change couplings roster = .ok couplings' →
      couplings ≤ couplings') (hsound : d.Sound) :
    ((Declare.couple change).run.run d).2.Sound ∧ d ≤ ((Declare.couple change).run.run d).2 :=
  sound_of_keeps (Declare.couple_keeps fun _ h => hchange h) hsound

/-- Every call leaves a sound design sound, and what is there as it is. -/
theorem Step.sound (h : Step d d') (hsound : d.Sound) : d'.Sound ∧ d ≤ d' := by
  cases h with
  | logic _ request hgrows => exact sound_of_keeps (Declare.logic_keeps hgrows) hsound
  | block => exact sound_of_keeps (Declare.block_keeps _ _) hsound
  | transaction => exact sound_of_keeps (Declare.transaction_keeps _ _ _) hsound
  | method _ spec hvalidator hcombiner =>
      exact sound_of_keeps (Declare.method_keeps hvalidator hcombiner) hsound
  | defineOutput => exact sound_of_keeps (Declare.defineOutput_keeps _ _) hsound
  | call => exact sound_of_keeps (Declare.call_keeps _ _ _ _) hsound
  | conflict => exact sound_of_keeps (Declare.conflict_keeps _ _ _) hsound
  | before => exact sound_of_couple Couplings.relate_le hsound
  | simultaneous => exact sound_of_couple Couplings.join_le hsound
  | alternatives => exact sound_of_keeps (Declare.alternatives_keeps _ _) hsound
  | acknowledge => exact sound_of_couple Couplings.acknowledge_le hsound

theorem Steps.sound (h : Steps d d') (hsound : d.Sound) : d'.Sound ∧ d ≤ d' := by
  induction h with
  | refl => exact ⟨hsound, d.le_refl⟩
  | step _ hstep ih =>
      obtain ⟨hmiddle, hle⟩ := ih
      obtain ⟨hlast, hle'⟩ := hstep.sound hmiddle
      exact ⟨hlast, le_trans hle hle'⟩

/-- **Every design that can be declared is sound.** -/
theorem Declared.sound (h : Declared d) : d.Sound := (Steps.sound h empty_sound).1

theorem Steps.trans (h : Steps d d') (h' : Steps d' d'') : Steps d d'' := by
  induction h' with
  | refl => exact h
  | step _ hstep ih => exact .step ih hstep

end Declarations

/-! ### Composed declarations -/

namespace Declare

variable {α β : Type}

/-- The request makes nothing but calls of the designer. -/
def Declares (request : Declare α) : Prop :=
  ∀ d : Declarations, Declarations.Steps d (request.run.run d).2

theorem declares_of_step {request : Declare α}
    (h : ∀ d : Declarations, Declarations.Step d (request.run.run d).2) : request.Declares :=
  fun d => .step (.refl d) (h d)

theorem pure_declares (a : α) : (pure a : Declare α).Declares := fun d => .refl d

theorem bind_declares {x : Declare α} {f : α → Declare β} (hx : x.Declares)
    (hf : ∀ a, (f a).Declares) : (x >>= f).Declares :=
  run_bind_trans (T := Declarations.Steps) Declarations.Steps.trans hx hf

theorem logic_declares {request : Build α} (h : request.Grows) : (logic request).Declares :=
  declares_of_step fun d => .logic d request h

theorem transaction_declares (name : String) (owner : Option BlockId) (request : NodeId) :
    (transaction name owner request).Declares :=
  declares_of_step fun d => .transaction d name owner request

theorem method_declares {spec : MethodSpec}
    (hvalidator : ∀ validator, spec.validator = some validator →
      ∀ arguments, (validator arguments).Grows)
    (hcombiner : ∀ combiner, spec.combiner = some combiner →
      ∀ arguments runs, (combiner arguments runs).Grows) : (method spec).Declares :=
  declares_of_step fun d => .method d spec hvalidator hcombiner

theorem call_declares (caller callee : ActionId) (enable : NodeId) (arguments : Bundle) :
    (call caller callee enable arguments).Declares :=
  declares_of_step fun d => .call d caller callee enable arguments

theorem conflict_declares (a b : ActionId) (priority : Priority) :
    (conflict a b priority).Declares :=
  declares_of_step fun d => .conflict d a b priority

theorem simultaneous_declares (a : ActionId) (others : List ActionId) :
    (simultaneous a others).Declares :=
  declares_of_step fun d => .simultaneous d a others

theorem alternatives_declares (a : ActionId) (others : List ActionId) :
    (alternatives a others).Declares :=
  declares_of_step fun d => .alternatives d a others

/-- A declaration that is not refused is answered. -/
theorem run_of_isOk {request : Declare Unit} {d : Declarations}
    (h : (request.run.run d).1.isOk = true) :
    request.run.run d = (.ok (), (request.run.run d).2) := by
  rcases hrun : request.run.run d with ⟨fault | _, d'⟩
  · rw [hrun] at h
    cases h
  · rfl

/-- A design can be declared in the middle of which a request was answered. -/
theorem Declares.declared_after {request : Declare α} (h : request.Declares)
    {d₀ d₁ d : Declarations} (hd₀ : d₀.Declared) {answer : Except Fault α}
    (hrun : request.run.run d₀ = (answer, d₁)) (hsteps : Declarations.Steps d₁ d) :
    d.Declared := by
  have hmiddle := h d₀
  rw [hrun] at hmiddle
  exact (hd₀.trans hmiddle).trans hsteps

/-- What is declared in one go from nothing can be declared. -/
theorem Declares.declared {request : Declare α} (h : request.Declares) :
    Declarations.Declared (request.run.run .empty).2 := h .empty

end Declare

end Interlock
