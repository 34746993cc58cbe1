/-
A design speaks of what is there.

The nodes of its actions and calls are nodes of its circuit, and what it says about pairs of
actions is about actions that are declared.  A declaration that is refused leaves the plan as it
was, and at most some logic behind; one that is answered adds what it has checked or made before.
So whatever is declared later has numbers that nothing before it mentions.
-/
import Interlock.Proofs.Circuit.Wires
import Interlock.Proofs.Coupling
import Interlock.Proofs.Hierarchy
import Interlock.Proofs.Roster

namespace Interlock

/-! ### What there is to speak of -/

/-- The nodes of the action are among the first so many. -/
structure Action.Within (n : Nat) (action : Action) : Prop where
  ready : action.ready < n
  run : action.run < n
  dataIn : ∀ node ∈ action.dataIn.nodes, node < n
  dataOut : ∀ node ∈ action.dataOut.nodes, node < n

/-- The nodes of the call are among the first so many. -/
structure CallSite.Within (n : Nat) (site : CallSite) : Prop where
  enable : site.enable < n
  arguments : ∀ node ∈ site.arguments.nodes, node < n

/-- The wires that an action brings. -/
def Action.wires (action : Action) : List NodeId :=
  action.run :: (action.dataIn.nodes ++ action.dataOut.nodes)

/-- What an action has in the circuit. -/
structure Action.Equipped (circuit : Circuit) (action : Action) : Prop where
  ready : circuit.width action.ready = .ok 1
  run : circuit.IsWire action.run 1
  dataIn : action.dataIn.OfWires circuit
  dataOut : action.dataOut.OfWires circuit
  distinct : action.wires.Nodup
  combines : action.isNonexclusive = true → action.dataIn.fields ≠ [] →
    action.combiner?.isSome = true

/-- What a call has in the circuit and in the roster. -/
structure CallSite.Fitting (circuit : Circuit) (roster : Roster) (site : CallSite) : Prop where
  caller : ∃ action, roster.actions[site.caller]? = some action
  callee : ∃ method, roster.actions[site.callee]? = some method ∧ method.isMethod = true ∧
    site.arguments.fields = method.dataIn.fields
  distinct : site.caller ≠ site.callee
  enable : circuit.width site.enable = .ok 1
  arguments : site.arguments.Carried circuit

/-- What is said is about so many actions. -/
structure Couplings.Between (couplings : Couplings) (actions : Nat) : Prop where
  relations : ∀ relation ∈ couplings.relations,
    relation.start < actions ∧ relation.finish < actions
  simultaneous : ∀ a b, (a, b) ∈ couplings.simultaneous → a < actions ∧ b < actions
  independent : ∀ a b, (a, b) ∈ couplings.independent → a < actions ∧ b < actions

/-- The plan with one more action. -/
def Plan.joinedBy (plan : Plan) (newcomer : Action) : Plan :=
  { plan with roster := plan.roster.push newcomer }

namespace Plan

variable {plan : Plan} {newcomer : Action} {a : ActionId}

theorem size_joinedBy : (plan.joinedBy newcomer).roster.size = plan.roster.size + 1 :=
  Roster.size_push newcomer

theorem actions_joinedBy (h : a < plan.roster.size) :
    (plan.joinedBy newcomer).roster.actions[a]? = plan.roster.actions[a]? :=
  Roster.actions_push_of_lt newcomer h

theorem actions_joinedBy_cases {action : Action}
    (h : (plan.joinedBy newcomer).roster.actions[a]? = some action) :
    action = newcomer ∨ plan.roster.actions[a]? = some action :=
  (Roster.actions_push_cases h).symm.imp_left And.right

theorem transactions_joinedBy (h : newcomer.isTransaction = true) :
    (plan.joinedBy newcomer).roster.transactions =
      plan.roster.transactions ++ [(plan.roster.size, newcomer)] := Roster.transactions_push h

theorem methods_joinedBy (h : newcomer.isTransaction = true) :
    (plan.joinedBy newcomer).roster.methods = plan.roster.methods := Roster.methods_push h

end Plan

namespace Declarations

/-- The plan speaks of nodes and of actions that are there. -/
structure Anchored (d : Declarations) : Prop where
  actions : ∀ (id : ActionId) (action : Action), d.plan.roster.actions[id]? = some action →
    action.Within d.circuit.size
  sites : ∀ (id : CallId) (site : CallSite), d.plan.calls.sites[id]? = some site →
    site.Within d.circuit.size
  couplings : d.plan.couplings.Between d.plan.roster.size

end Declarations

/-- The action is new: its name is free, and its wires come after all that was there; the block that
owns it was there before. -/
structure Declarations.Enrols (d : Declarations) (newcomer : Action) (d' : Declarations) :
    Prop where
  plan : d'.plan = d.plan.joinedBy newcomer
  named : d.plan.roster.find? newcomer.qualifiedName = none
  owned : ∀ block, newcomer.owner = some block → block < d.plan.blocks.size
  equipped : newcomer.Equipped d'.circuit
  fresh : ∀ wire ∈ newcomer.wires, d.circuit.size ≤ wire

/-- The action is the method that was described, named with the blocks that are there. -/
structure MethodSpec.Describes (spec : MethodSpec) (blocks : Hierarchy) (action : Action) :
    Prop where
  qualified : blocks.qualify spec.owner spec.name = .ok action.qualifiedName
  isMethod : action.isMethod = true
  ready : ∀ node ∈ spec.ready, action.ready = node
  dataIn : action.dataIn.fields = spec.input.fields
  validator : action.validator? = spec.validator
  combiner : action.combiner? = spec.combiner

theorem Action.Equipped.within {circuit : Circuit} {action : Action}
    (h : action.Equipped circuit) : action.Within circuit.size where
  ready := Circuit.lt_size_of_width h.ready
  run := h.run.lt_size
  dataIn := h.dataIn.carried.lt_size
  dataOut := h.dataOut.carried.lt_size

theorem CallSite.Fitting.within {circuit : Circuit} {roster : Roster} {site : CallSite}
    (h : site.Fitting circuit roster) : site.Within circuit.size where
  enable := Circuit.lt_size_of_width h.enable
  arguments := h.arguments.lt_size

theorem Action.Within.mono {n n' : Nat} {action : Action} (h : action.Within n) (hle : n ≤ n') :
    action.Within n' where
  ready := Nat.lt_of_lt_of_le h.ready hle
  run := Nat.lt_of_lt_of_le h.run hle
  dataIn := fun node hnode => Nat.lt_of_lt_of_le (h.dataIn node hnode) hle
  dataOut := fun node hnode => Nat.lt_of_lt_of_le (h.dataOut node hnode) hle

theorem CallSite.Within.mono {n n' : Nat} {site : CallSite} (h : site.Within n) (hle : n ≤ n') :
    site.Within n' where
  enable := Nat.lt_of_lt_of_le h.enable hle
  arguments := fun node hnode => Nat.lt_of_lt_of_le (h.arguments node hnode) hle

theorem Couplings.Between.mono {couplings : Couplings} {n n' : Nat} (h : couplings.Between n)
    (hle : n ≤ n') : couplings.Between n' where
  relations := fun relation hrelation =>
    have hlt := h.relations relation hrelation
    ⟨Nat.lt_of_lt_of_le hlt.1 hle, Nat.lt_of_lt_of_le hlt.2 hle⟩
  simultaneous := fun a b hab =>
    have hlt := h.simultaneous a b hab
    ⟨Nat.lt_of_lt_of_le hlt.1 hle, Nat.lt_of_lt_of_le hlt.2 hle⟩
  independent := fun a b hab =>
    have hlt := h.independent a b hab
    ⟨Nat.lt_of_lt_of_le hlt.1 hle, Nat.lt_of_lt_of_le hlt.2 hle⟩

/-! ### What stays anchored -/

namespace Declarations

variable {d d' : Declarations}

theorem empty_anchored : empty.Anchored where
  actions := fun id action h => by simp [empty, Plan.empty, Roster.empty] at h
  sites := fun id site h => by simp [empty, Plan.empty, Calls.empty] at h
  couplings := ⟨by simp [empty, Plan.empty, Couplings.empty],
    by simp [empty, Plan.empty, Couplings.empty], by simp [empty, Plan.empty, Couplings.empty]⟩

/-- The plan may stay as it is while the circuit grows; blocks are not spoken of. -/
theorem Anchored.grow (h : d.Anchored) (hle : d.circuit ≤ d'.circuit)
    (hroster : d'.plan.roster = d.plan.roster) (hcalls : d'.plan.calls = d.plan.calls)
    (hcouplings : d'.plan.couplings = d.plan.couplings) : d'.Anchored where
  actions := by
    rw [hroster]
    exact fun id action haction => (h.actions id action haction).mono (Circuit.size_le_of_le hle)
  sites := by
    rw [hcalls]
    exact fun id site hsite => (h.sites id site hsite).mono (Circuit.size_le_of_le hle)
  couplings := by
    rw [hroster, hcouplings]
    exact h.couplings

theorem Anchored.join (h : d.Anchored) (hle : d.circuit ≤ d'.circuit) {newcomer : Action}
    (hplan : d'.plan = d.plan.joinedBy newcomer) (hnewcomer : newcomer.Within d'.circuit.size) :
    d'.Anchored where
  actions := by
    intro id action haction
    rw [hplan] at haction
    rcases Plan.actions_joinedBy_cases haction with rfl | hold
    · exact hnewcomer
    · exact (h.actions id action hold).mono (Circuit.size_le_of_le hle)
  sites := by
    rw [hplan]
    exact fun id site hsite => (h.sites id site hsite).mono (Circuit.size_le_of_le hle)
  couplings := by
    rw [hplan, Plan.size_joinedBy]
    exact h.couplings.mono (Nat.le_succ _)

theorem Anchored.addCall (h : d.Anchored) {site : CallSite} (hsite : site.Within d.circuit.size) :
    Anchored { d with plan := { d.plan with calls := d.plan.calls.push site } } where
  actions := h.actions
  sites := by
    intro id other hother
    rw [Calls.push, Array.getElem?_push] at hother
    split at hother
    · rw [← Option.some.inj hother]
      exact hsite
    · exact h.sites id other hother
  couplings := h.couplings

end Declarations

namespace Coupling

/-- What is added about pairs is about the actions that were checked. -/
theorem Admissible.between {coupling : Coupling} {roster : Roster} {couplings : Couplings}
    (h : coupling.Admissible roster couplings) (hcouplings : couplings.Between roster.size) :
    (coupling.addTo couplings).Between roster.size where
  relations := by
    intro relation hrelation
    rcases List.mem_append.mp hrelation with hold | hnew
    · exact hcouplings.relations relation hold
    · have hnew := Option.mem_toList.mp hnew
      cases coupling <;> simp [relation?, Relation.conflict, Relation.before] at hnew
      · subst hnew
        exact ⟨h.1 _ (by simp [actions]), h.1 _ (by simp [actions])⟩
      · subst hnew
        exact ⟨h.1 _ (by simp [actions]), h.1 _ (by simp [actions])⟩
  simultaneous := by
    intro a b hab
    rcases List.mem_append.mp hab with hold | hnew
    · exact hcouplings.simultaneous a b hold
    · cases coupling <;> simp [tied] at hnew
      · obtain ⟨hb, rfl⟩ := hnew
        exact ⟨h.1 _ (by simp [actions]), h.1 _ (by simp [actions, hb])⟩
      · obtain ⟨hb, rfl⟩ := hnew
        exact ⟨h.1 _ (by simp [actions]), h.1 _ (by simp [actions, hb])⟩
  independent := by
    intro a b hab
    have hchoice : ∀ x ∈ coupling.choices, x < roster.size := by
      intro x hx
      cases coupling <;> simp [choices] at hx
      exact h.1 x (by simp [actions, hx])
    rcases mem_separate.mp hab with hold | ⟨x, y, hxy, -, heq⟩
    · exact hcouplings.independent a b hold
    · obtain ⟨hx, hy⟩ := mem_of_mem_pairs hxy
      rcases ordered_or x y with hordered | hordered
      · rw [hordered] at heq
        cases heq
        exact ⟨hchoice _ hx, hchoice _ hy⟩
      · rw [hordered] at heq
        cases heq
        exact ⟨hchoice _ hy, hchoice _ hx⟩

end Coupling

/-! ### What declarations leave -/

namespace Declare

variable {α β : Type} {d d' : Declarations}

/-- If it is refused, the declaration leaves at most some logic behind; if it is answered, its
answer and what it leaves have a property. -/
def Leaves (request : Declare α) (d : Declarations) (P : α → Declarations → Prop) : Prop :=
  ∀ answer d', request.run.run d = (answer, d') → d.circuit ≤ d'.circuit ∧
    (∀ fault, answer = .error fault → d'.plan = d.plan) ∧ ∀ a, answer = .ok a → P a d'

variable {P Q : α → Declarations → Prop} {request : Declare α}

theorem Leaves.mono (h : request.Leaves d P)
    (hPQ : ∀ a d', d.circuit ≤ d'.circuit → P a d' → Q a d') : request.Leaves d Q := by
  intro answer d' hrun
  obtain ⟨hle, hrefused, hP⟩ := h answer d' hrun
  exact ⟨hle, hrefused, fun a ha => hPQ a d' hle (hP a ha)⟩

theorem pure_leaves {a : α} (h : P a d) : (pure a : Declare α).Leaves d P := by
  intro answer d' hrun
  cases hrun
  refine ⟨d.circuit.le_refl, fun _ _ => rfl, fun b hb => ?_⟩
  cases hb
  exact h

theorem throw_leaves (fault : Fault) : (throw fault : Declare α).Leaves d P := by
  intro answer d' hrun
  cases hrun
  exact ⟨d.circuit.le_refl, fun _ _ => rfl, fun b hb => nomatch hb⟩

/-- The first part leaves the plan as it is, whatever becomes of it. -/
theorem bind_leaves {x : Declare β} {f : β → Declare α} {R : β → Declarations → Prop}
    (hx : x.Leaves d fun b d' => d'.plan = d.plan ∧ R b d')
    (hf : ∀ b d', d.circuit ≤ d'.circuit → d'.plan = d.plan → R b d' → (f b).Leaves d' P) :
    (x >>= f).Leaves d P := by
  intro answer d' hrun
  rw [run_bind] at hrun
  rcases hfirst : x.run.run d with ⟨fault | b, d₁⟩
  · rw [hfirst] at hrun
    cases hrun
    obtain ⟨hle, hrefused, -⟩ := hx _ _ hfirst
    exact ⟨hle, fun _ _ => hrefused fault rfl, fun a ha => nomatch ha⟩
  · rw [hfirst] at hrun
    obtain ⟨hle, -, hanswered⟩ := hx _ _ hfirst
    obtain ⟨hplan, hR⟩ := hanswered b rfl
    obtain ⟨hle', hrefused, hP⟩ := hf b d₁ hle hplan hR answer d' hrun
    refine ⟨Circuit.le_trans hle hle', fun fault hfault => ?_, hP⟩
    rw [hrefused fault hfault, hplan]

/-- The second part is never refused. -/
theorem map_leaves {x : Declare β} {f : β → α} {R : β → Declarations → Prop}
    (hx : x.Leaves d R) (hP : ∀ b d', R b d' → P (f b) d') :
    (x >>= fun b => pure (f b)).Leaves d P := by
  intro answer d' hrun
  rw [run_bind] at hrun
  rcases hfirst : x.run.run d with ⟨fault | b, d₁⟩
  · rw [hfirst] at hrun
    cases hrun
    obtain ⟨hle, hrefused, -⟩ := hx _ _ hfirst
    exact ⟨hle, fun _ _ => hrefused fault rfl, fun a ha => nomatch ha⟩
  · rw [hfirst] at hrun
    cases hrun
    obtain ⟨hle, -, hanswered⟩ := hx _ _ hfirst
    refine ⟨hle, fun fault hfault => (nomatch hfault), fun a ha => ?_⟩
    cases ha
    exact hP b _ (hanswered b rfl)

theorem ofExcept_leaves (answer : Except Fault α) : (ofExcept answer : Declare α).Leaves d
    fun a d' => d'.plan = d.plan ∧ answer = .ok a ∧ d' = d := by
  cases answer with
  | ok a => exact pure_leaves ⟨rfl, rfl, rfl⟩
  | error fault => exact throw_leaves fault

theorem get_leaves : (get : Declare Declarations).Leaves d
    fun state d' => d'.plan = d.plan ∧ state = d ∧ d' = d := by
  intro answer d' hrun
  cases hrun
  refine ⟨d.circuit.le_refl, fun _ _ => rfl, fun b hb => ?_⟩
  cases hb
  exact ⟨rfl, rfl, rfl⟩

theorem plan_leaves : plan.Leaves d fun plan d' => d'.plan = d.plan ∧ plan = d.plan ∧ d' = d :=
  map_leaves get_leaves fun _ _ h => ⟨h.1, by rw [h.2.1], h.2.2⟩

theorem setPlan_leaves (plan : Plan) :
    (setPlan plan).Leaves d fun _ d' => d' = ⟨d.circuit, plan⟩ := by
  intro answer d' hrun
  cases hrun
  exact ⟨d.circuit.le_refl, fun fault hfault => (nomatch hfault), fun _ _ => rfl⟩

theorem logic_leaves {request : Build α} (h : request.Grows) : (logic request).Leaves d
    fun a d' => d'.plan = d.plan ∧ request.Yields d.circuit a d'.circuit := by
  intro answer d' hrun
  rw [run_logic] at hrun
  have hle := h d.circuit
  cases hrun
  refine ⟨hle, fun _ _ => rfl, fun a ha => ⟨rfl, ?_⟩⟩
  exact Prod.ext (ofCircuit_eq_ok_iff.mp ha) rfl

/-! ### Every declaration -/

theorem block_leaves (name : String) (parent : Option BlockId) :
    (block name parent).Leaves d fun _ d' => d'.circuit = d.circuit ∧
      ∃ blocks, d'.plan = { d.plan with blocks } ∧ d.plan.blocks.size ≤ blocks.size := by
  refine bind_leaves plan_leaves fun plan d₁ _ _ hplan => ?_
  obtain ⟨rfl, rfl⟩ := hplan
  refine bind_leaves (ofExcept_leaves _) fun answer d₂ _ _ hanswer => ?_
  obtain ⟨hanswer, rfl⟩ := hanswer
  refine map_leaves (setPlan_leaves _) fun _ d₃ hset => ?_
  rw [hset]
  refine ⟨rfl, _, rfl, Nat.le_of_lt ?_⟩
  rw [Hierarchy.size_of_add hanswer]
  exact Nat.lt_succ_self _

theorem qualify_leaves (name : String) (owner : Option BlockId) :
    (qualify name owner).Leaves d fun qualified d' => d'.plan = d.plan ∧
      d.plan.blocks.qualify owner name = .ok qualified ∧
        d.plan.roster.find? qualified = none ∧
          (∀ block, owner = some block → block < d.plan.blocks.size) ∧ d' = d := by
  refine bind_leaves plan_leaves fun plan d₁ _ _ hplan => ?_
  obtain ⟨rfl, rfl⟩ := hplan
  refine bind_leaves (ofExcept_leaves _) fun qualified d₂ _ _ hqualified => ?_
  obtain ⟨hqualified, rfl⟩ := hqualified
  dsimp only
  split
  · exact bind_leaves (R := fun _ _ => False) (throw_leaves _) fun _ _ _ _ h => h.elim
  · rename_i hfree
    exact pure_leaves
      ⟨rfl, hqualified, by simpa using hfree, Hierarchy.lt_of_qualify hqualified, rfl⟩

theorem enrol_leaves (action : Action) : (enrol action).Leaves d fun id d' =>
    id = d.plan.roster.size ∧ d' = ⟨d.circuit, d.plan.joinedBy action⟩ := by
  refine bind_leaves plan_leaves fun plan d₁ _ _ hplan => ?_
  obtain ⟨rfl, rfl⟩ := hplan
  dsimp only
  split
  · exact bind_leaves (R := fun _ _ => False) (throw_leaves _) fun _ _ _ _ h => h.elim
  · exact map_leaves (setPlan_leaves _) fun _ _ hset => ⟨rfl, hset⟩

/-- A transaction that is declared has a name of its own, the next number and the next node. -/
theorem transaction_enters (name : String) (owner : Option BlockId) (request : NodeId) :
    (transaction name owner request).Leaves d fun id d' => id = d.plan.roster.size ∧
      d.circuit.width request = .ok 1 ∧ ∃ qualifiedName,
        d.plan.blocks.qualify owner name = .ok qualifiedName ∧
        d.plan.roster.find? qualifiedName = none ∧
        (∀ block, owner = some block → block < d.plan.blocks.size) ∧
        d' = ⟨⟨d.circuit.nodes.push ⟨1, .wire (runName qualifiedName) none⟩⟩,
          d.plan.joinedBy { name, qualifiedName, owner, ready := request, run := d.circuit.size,
                            role := .transaction }⟩ := by
  refine bind_leaves (logic_leaves (expectBit_grows _ _)) fun _ d₁ _ hplan₁ hbit => ?_
  obtain ⟨hbit, hcircuit₁⟩ := expectBit_yields hbit
  obtain rfl : d₁ = d := by
    cases d₁
    cases d
    exact congr (congrArg Declarations.mk hcircuit₁) hplan₁
  refine bind_leaves (qualify_leaves name owner) fun qualifiedName d₂ _ _ hqualify => ?_
  obtain ⟨hqualified, hfree, howner, rfl⟩ := hqualify
  refine bind_leaves (logic_leaves (Build.wire_grows _ _)) fun run d₃ _ hplan₃ hwire => ?_
  obtain ⟨-, rfl, hcircuit₃⟩ := Build.wire_yields_iff.mp hwire
  refine (enrol_leaves _).mono fun id d₄ _ henrol => ?_
  obtain ⟨rfl, rfl⟩ := henrol
  rw [hplan₃, hcircuit₃]
  exact ⟨rfl, hbit, qualifiedName, hqualified, hfree, howner, rfl⟩

/-- **A transaction that is declared has the next number and the next node.** -/
theorem transaction_leaves (name : String) (owner : Option BlockId) (request : NodeId) :
    (transaction name owner request).Leaves d fun id d' => id = d.plan.roster.size ∧
      d.circuit.width request = .ok 1 ∧ ∃ qualifiedName,
        d' = ⟨⟨d.circuit.nodes.push ⟨1, .wire (runName qualifiedName) none⟩⟩,
          d.plan.joinedBy { name, qualifiedName, owner, ready := request, run := d.circuit.size,
                            role := .transaction }⟩ :=
  (transaction_enters name owner request).mono fun _ _ _ h =>
    ⟨h.1, h.2.1, h.2.2.imp fun _ hentered => hentered.2.2.2⟩

/-- A transaction that is declared is new. -/
theorem transaction_enrols (name : String) (owner : Option BlockId) (request : NodeId) :
    (transaction name owner request).Leaves d fun _ d' => ∃ action, d.Enrols action d' := by
  refine (transaction_enters name owner request).mono fun _ d' hle h => ?_
  obtain ⟨-, hbit, qualifiedName, -, hfree, howner, rfl⟩ := h
  refine ⟨_, rfl, hfree, howner, ?_, fun wire hwire => ?_⟩
  · exact
      { ready := Circuit.width_of_le hle hbit
        run := d.circuit.isWire_push 1 _
        dataIn := fun _ _ hentry => (nomatch hentry)
        dataOut := fun _ _ hentry => (nomatch hentry)
        distinct := List.nodup_singleton _
        combines := fun hnonexclusive => (nomatch hnonexclusive) }
  · obtain rfl : wire = d.circuit.size := List.mem_singleton.mp hwire
    exact Nat.le_refl _

theorem methodReady_leaves (ready : Option NodeId) : (logic (methodReady ready)).Leaves d
    fun node d' => d'.plan = d.plan ∧ d'.circuit.width node = .ok 1 ∧
      ∀ given ∈ ready, node = given := by
  cases ready with
  | none =>
      refine (logic_leaves Build.high_grows).mono fun node d' _ hhigh => ⟨hhigh.1, ?_, nofun⟩
      exact Circuit.width_eq_ok_iff.mpr ⟨_, Build.shared_yields hhigh.2, rfl⟩
  | some node =>
      refine (logic_leaves (Build.bind_grows (expectBit_grows _ _) fun _ =>
        Build.pure_grows node)).mono fun node' d' _ hready => ⟨hready.1, ?_⟩
      obtain ⟨_, c₁, hexpect, hpure⟩ := Build.yields_bind_iff.mp hready.2
      obtain ⟨rfl, hcircuit⟩ := Build.yields_pure_iff.mp hpure
      obtain ⟨hbit, rfl⟩ := expectBit_yields hexpect
      rw [hcircuit]
      exact ⟨hbit, fun given hgiven => Option.some.inj hgiven⟩

/-- A method that is declared is new, and as it was described. -/
theorem method_enters (spec : MethodSpec) : (method spec).Leaves d fun _ d' =>
    ∃ action, d.Enrols action d' ∧ spec.Describes d.plan.blocks action := by
  refine bind_leaves (qualify_leaves _ _) fun qualifiedName d₁ _ _ hqualify => ?_
  obtain ⟨hqualified, hfree, howner, rfl⟩ := hqualify
  dsimp only
  split
  · exact bind_leaves (R := fun _ _ => False) (throw_leaves _) fun _ _ _ _ h => h.elim
  · rename_i hcombines
    refine bind_leaves (methodReady_leaves spec.ready) fun ready d₂ hle₂ hplan₂ hreadies => ?_
    obtain ⟨hready, hgiven⟩ := hreadies
    refine bind_leaves (logic_leaves (Build.wire_grows _ _)) fun run d₃ hle₃ hplan₃ hrun => ?_
    refine bind_leaves (logic_leaves (Build.wires_grows _ _))
      fun dataIn d₄ hle₄ hplan₄ hdataIn => ?_
    refine bind_leaves (logic_leaves (Build.wires_grows _ _))
      fun dataOut d₅ hle₅ hplan₅ hdataOut => ?_
    refine map_leaves (enrol_leaves _) fun id d₆ henrol => ?_
    obtain ⟨-, rfl⟩ := henrol
    have hle₃₅ := Circuit.le_trans hle₄ hle₅
    have hsize₂ := Circuit.size_le_of_le hle₂
    obtain ⟨-, rfl, hcircuit₃⟩ := Build.wire_yields_iff.mp hrun
    have hrun : d₃.circuit.IsWire d₂.circuit.size 1 := by
      rw [hcircuit₃]
      exact d₂.circuit.isWire_push 1 _
    have hsize₃ := hrun.lt_size
    have hsize₄ := Circuit.size_le_of_le hle₄
    obtain ⟨hin, hinNodup, hinAfter⟩ := Build.wires_yields hdataIn
    obtain ⟨hout, houtNodup, houtAfter⟩ := Build.wires_yields hdataOut
    have hinFields : dataIn.fields = spec.input.fields := Build.bundle_yields hdataIn
    -- the run wire comes first, then the wires for the data, one bundle after the other
    have hrunIn : ∀ node ∈ dataIn.nodes, d₂.circuit.size < node :=
      fun node hnode => Nat.lt_of_lt_of_le hsize₃ (hinAfter node hnode)
    have hrunOut : ∀ node ∈ dataOut.nodes, d₂.circuit.size < node :=
      fun node hnode => Nat.lt_of_lt_of_le hsize₃ (Nat.le_trans hsize₄ (houtAfter node hnode))
    have hinOut : ∀ node ∈ dataIn.nodes, ∀ other ∈ dataOut.nodes, node ≠ other :=
      fun node hnode other hother => Nat.ne_of_lt
        (Nat.lt_of_lt_of_le (hin.carried.lt_size node hnode) (houtAfter other hother))
    refine ⟨_, ⟨by rw [hplan₅, hplan₄, hplan₃, hplan₂], hfree, howner, ?_, fun wire hwire => ?_⟩,
      ⟨hqualified, rfl, hgiven, ?_, rfl, rfl⟩⟩
    · exact
        { ready := Circuit.width_of_le (Circuit.le_trans hle₃ hle₃₅) hready
          run := hrun.mono hle₃₅
          dataIn := hin.mono hle₅
          dataOut := hout
          distinct := List.nodup_cons.mpr ⟨fun hmem => (List.mem_append.mp hmem).elim
            (fun hmem => Nat.lt_irrefl _ (hrunIn _ hmem))
            (fun hmem => Nat.lt_irrefl _ (hrunOut _ hmem)),
            List.nodup_append.mpr ⟨hinNodup, houtNodup, hinOut⟩⟩
          combines := fun hnonexclusive hfields => by
            change spec.nonexclusive = true at hnonexclusive
            change dataIn.fields ≠ [] at hfields
            show spec.combiner.isSome = true
            rw [hinFields] at hfields
            have hinput : spec.input.isEmpty = false :=
              Bool.eq_false_iff.mpr fun hempty => hfields (List.isEmpty_iff.mp hempty)
            simpa [hnonexclusive, hinput, Option.isSome_iff_ne_none] using hcombines }
    · rcases List.mem_cons.mp hwire with rfl | hmem
      · exact hsize₂
      rcases List.mem_append.mp hmem with hmem | hmem
      · exact Nat.le_trans hsize₂ (Nat.le_of_lt (hrunIn wire hmem))
      · exact Nat.le_trans hsize₂ (Nat.le_of_lt (hrunOut wire hmem))
    · exact hinFields

/-- A method that is declared is new. -/
theorem method_enrols (spec : MethodSpec) : (method spec).Leaves d fun _ d' =>
    ∃ action, d.Enrols action d' ∧ action.validator? = spec.validator ∧
      action.combiner? = spec.combiner :=
  (method_enters spec).mono fun _ _ _ h =>
    h.imp fun _ henters => ⟨henters.1, henters.2.validator, henters.2.combiner⟩

theorem method_leaves (spec : MethodSpec) : (method spec).Leaves d fun _ d' =>
    ∃ action, d'.plan = d.plan.joinedBy action ∧ action.Within d'.circuit.size ∧
      action.validator? = spec.validator ∧ action.combiner? = spec.combiner :=
  (method_enrols spec).mono fun _ _ _ h =>
    h.imp fun _ henrols => ⟨henrols.1.plan, henrols.1.equipped.within, henrols.2⟩

theorem defineOutput_leaves (method : ActionId) (value : Bundle) :
    (defineOutput method value).Leaves d fun _ d' => d'.plan = d.plan := by
  refine bind_leaves plan_leaves fun plan d₁ _ _ hplan => ?_
  obtain ⟨rfl, rfl⟩ := hplan
  refine bind_leaves (ofExcept_leaves _) fun action d₂ _ _ haction => ?_
  obtain ⟨-, rfl⟩ := haction
  split
  · exact throw_leaves _
  · exact (logic_leaves (Build.driveAll_grows _ _)).mono fun _ _ _ h => h.1

theorem checkArguments_yields {input : List Field} {arguments : Bundle} {c c' : Circuit}
    (h : (checkArguments input arguments).Yields c () c') :
    arguments.fields = input ∧ arguments.Carried c := by
  obtain ⟨bound, c₁, hbind, hexpect⟩ := Build.yields_bind_iff.mp h
  obtain ⟨hfields, hnodes, hcarried⟩ := Build.bind_yields hbind
  obtain ⟨hexpect, -⟩ := Build.ofExcept_yields_iff.mp hexpect
  unfold Bundle.expectFields at hexpect
  split at hexpect
  · rename_i hsame
    obtain rfl : bound = arguments := Bundle.ext_of_fields_nodes hsame hnodes
    exact ⟨hfields, hcarried⟩
  · cases hexpect

/-- What is called without a flaw is another action, a method, and called with what it takes. -/
theorem callFlaw_fits {circuit : Circuit} {caller callee : ActionId} {target : Action}
    {enable : NodeId} {arguments : Bundle}
    (h : callFlaw? circuit caller callee target enable arguments = none) :
    caller ≠ callee ∧ arguments.fields = target.dataIn.fields ∧ arguments.Carried circuit := by
  unfold callFlaw? at h
  split at h
  · cases h
  · rename_i interface hinterface
    have hdataIn : target.dataIn = interface.dataIn := by
      unfold Action.dataIn
      rw [hinterface]
      rfl
    split at h
    · cases h
    · rename_i hne
      split at h
      · cases h
      · split at h
        · cases h
        · rename_i harguments
          rw [hdataIn]
          exact ⟨hne, checkArguments_yields (Prod.ext harguments rfl)⟩

/-- A call that is declared fits, and it is the only one of a method for a single caller. -/
theorem call_pushes (caller callee : ActionId) (enable : NodeId) (arguments : Bundle) :
    (call caller callee enable arguments).Leaves d fun _ d' =>
      CallSite.Fitting d.circuit d.plan.roster ⟨caller, callee, enable, arguments⟩ ∧
        (∀ method, d.plan.roster.actions[callee]? = some method →
          method.isSingleCaller = true → d.plan.calls.byCallee callee = []) ∧
        d' = { d with plan := { d.plan with
          calls := d.plan.calls.push ⟨caller, callee, enable, arguments⟩ } } := by
  refine bind_leaves get_leaves fun state d₁ _ _ hstate => ?_
  obtain ⟨rfl, rfl⟩ := hstate
  refine bind_leaves (ofExcept_leaves _) fun source d₂ _ _ hsource => ?_
  obtain ⟨hsource, rfl⟩ := hsource
  refine bind_leaves (ofExcept_leaves _) fun target d₃ _ _ htarget => ?_
  obtain ⟨htarget, rfl⟩ := htarget
  have htarget := action_eq_ok htarget
  split
  · exact throw_leaves _
  · rename_i hflaw
    obtain ⟨hmethod, henable⟩ := callFlaw_eq_none hflaw
    obtain ⟨hne, hfields, hcarried⟩ := callFlaw_fits hflaw
    dsimp only
    split
    · exact bind_leaves (R := fun _ _ => False) (throw_leaves _) fun _ _ _ _ h => h.elim
    · rename_i hsingle
      refine map_leaves (setPlan_leaves _) fun _ d₄ hset => ?_
      refine ⟨⟨⟨source, action_eq_ok hsource⟩, ⟨target, htarget, hmethod, hfields⟩, hne, henable,
        hcarried⟩, fun method hsite hcaller => ?_, hset⟩
      obtain rfl : target = method := Option.some.inj (htarget.symm.trans hsite)
      simpa [hcaller] using hsingle

theorem call_enters (caller callee : ActionId) (enable : NodeId) (arguments : Bundle) :
    (call caller callee enable arguments).Leaves d fun _ d' =>
      ∃ site : CallSite, site.Fitting d.circuit d.plan.roster ∧
        (∀ method, d.plan.roster.actions[site.callee]? = some method →
          method.isSingleCaller = true → d.plan.calls.byCallee site.callee = []) ∧
        d' = { d with plan := { d.plan with calls := d.plan.calls.push site } } :=
  (call_pushes caller callee enable arguments).mono fun _ _ _ h => ⟨_, h⟩

theorem call_leaves (caller callee : ActionId) (enable : NodeId) (arguments : Bundle) :
    (call caller callee enable arguments).Leaves d fun _ d' =>
      ∃ site : CallSite, site.Within d.circuit.size ∧
        d' = { d with plan := { d.plan with calls := d.plan.calls.push site } } :=
  (call_enters caller callee enable arguments).mono fun _ _ _ h =>
    h.imp fun _ henters => ⟨henters.1.within, henters.2.2⟩

end Declare

/-! ### Sequences of declarations -/

namespace Declarations

variable {d d' : Declarations}

theorem anchored_of_leaves {α : Type} {request : Declare α} {P : α → Declarations → Prop}
    (h : request.Leaves d P) (hd : d.Anchored)
    (hP : ∀ a d', d.circuit ≤ d'.circuit → P a d' → d'.Anchored) :
    (request.run.run d).2.Anchored := by
  obtain ⟨hle, hrefused, hanswered⟩ := h _ _ rfl
  cases hanswer : (request.run.run d).1 with
  | error fault =>
      have hplan : (request.run.run d).2.plan = d.plan := hrefused fault hanswer
      exact hd.grow hle (by rw [hplan]) (by rw [hplan]) (by rw [hplan])
  | ok a => exact hP a _ hle (hanswered a hanswer)

theorem anchored_of_declare (coupling : Coupling) (hd : d.Anchored) :
    (coupling.declare.run.run d).2.Anchored := by
  rw [Coupling.run_declare]
  cases hchange : coupling.change d.plan.couplings d.plan.roster with
  | error fault => exact hd
  | ok couplings =>
      obtain ⟨hadmissible, rfl⟩ := Coupling.change_eq_ok_iff.mp hchange
      exact ⟨hd.actions, hd.sites, hadmissible.between hd.couplings⟩

/-- Every call of the designer leaves an anchored design anchored. -/
theorem Step.anchored (h : Step d d') (hd : d.Anchored) : d'.Anchored := by
  cases h with
  | logic _ request hgrows =>
      refine anchored_of_leaves (Declare.logic_leaves hgrows) hd fun _ _ hle hlogic => ?_
      exact hd.grow hle (by rw [hlogic.1]) (by rw [hlogic.1]) (by rw [hlogic.1])
  | block _ name parent =>
      refine anchored_of_leaves (Declare.block_leaves name parent) hd fun _ _ hle hblock => ?_
      obtain ⟨-, blocks, hplan, -⟩ := hblock
      exact hd.grow hle (by rw [hplan]) (by rw [hplan]) (by rw [hplan])
  | transaction _ name owner request =>
      refine anchored_of_leaves (Declare.transaction_leaves name owner request) hd
        fun _ _ hle htransaction => ?_
      obtain ⟨-, hbit, qualifiedName, rfl⟩ := htransaction
      have hsize : (⟨d.circuit.nodes.push ⟨1, .wire (Declare.runName qualifiedName) none⟩⟩ :
          Circuit).size = d.circuit.size + 1 := Array.size_push ..
      refine hd.join hle rfl ⟨?_, ?_, fun _ h => (nomatch h), fun _ h => (nomatch h)⟩
      · rw [hsize]
        exact Nat.lt_succ_of_lt (Circuit.lt_size_of_width hbit)
      · rw [hsize]
        exact Nat.lt_succ_self _
  | method _ spec =>
      refine anchored_of_leaves (Declare.method_leaves spec) hd fun _ _ hle hmethod => ?_
      obtain ⟨action, hplan, haction, -⟩ := hmethod
      exact hd.join hle hplan haction
  | defineOutput _ method value =>
      refine anchored_of_leaves (Declare.defineOutput_leaves method value) hd
        fun _ _ hle hplan => ?_
      exact hd.grow hle (by rw [hplan]) (by rw [hplan]) (by rw [hplan])
  | call _ caller callee enable arguments =>
      refine anchored_of_leaves (Declare.call_leaves caller callee enable arguments) hd
        fun _ _ _ hcall => ?_
      obtain ⟨site, hsite, rfl⟩ := hcall
      exact hd.addCall hsite
  | conflict _ a b priority => exact anchored_of_declare (.conflict a b priority) hd
  | before _ a b => exact anchored_of_declare (.before a b) hd
  | simultaneous _ a others => exact anchored_of_declare (.simultaneous a others) hd
  | alternatives _ a others => exact anchored_of_declare (.alternatives a others) hd
  | acknowledge _ a b => exact anchored_of_declare (.acknowledge a b) hd

theorem Steps.anchored (h : Steps d d') (hd : d.Anchored) : d'.Anchored := by
  induction h with
  | refl => exact hd
  | step _ hstep ih => exact hstep.anchored ih

/-- **Every design that can be declared speaks of what is there.** -/
theorem Declared.anchored (h : Declared d) : d.Anchored := Steps.anchored h empty_anchored

end Declarations
end Interlock
