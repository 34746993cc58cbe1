/-
Refused declarations.

A declaration that is refused leaves the design as it was: no node, block, action or call is added,
and nothing is said about pairs of actions.  It is not that what was added is taken back.  Every
declaration begins with checks, which add nothing, and from the first thing that it adds nothing
can be refused any more.

For the later steps this is not plain.  A method makes a wire for its run bit and one for every
field before its name is looked up once more; but fields have widths that wires may have, and no
request to the circuit touches the roster, where the name was found to be free.  Alternatives are
tied before they are kept apart; but whoever is tied was found on the roster.

Results of methods are not among these declarations.
-/
import Interlock.Proofs.Circuit.Completing
import Interlock.Proofs.Inventory

namespace Interlock

/-! ### Wires are not refused -/

namespace Build

variable {c : Circuit}

theorem high_answers : high.Answers c fun _ _ => True := by
  have hmakes : high.Makes c (fun _ => True) ∅ 1 :=
    high_makes ⟨fun _ _ _ => trivial, fun _ _ _ _ => trivial⟩ trivial
  exact hmakes.mono fun _ _ _ _ => trivial

theorem wire_answers {w : Nat} (hw : Word.ValidWidth w) (name : String) :
    (wire name w).Answers c fun _ _ => True :=
  ⟨c.size, _, wire_yields_iff.mpr ⟨hw, rfl, rfl⟩, c.le_push _, trivial⟩

/-- The widths of a shape's fields are widths that wires may have. -/
theorem wires_answers (owner : String) (shape : Shape) :
    (wires owner shape.fields).Answers c fun _ _ => True := by
  have hfields := mapM_answers (c := c) (J := fun _ => True) (P := fun _ _ _ => True)
    (l := shape.fields) (fun _ _ _ _ _ _ => trivial)
    (fun field hfield c' _ _ => bind_answers (wire_answers (shape.valid.1 field hfield)
      (fieldName owner field)) fun node c'' _ _ =>
        pure_answers (a := (field, node)) ⟨trivial, trivial⟩) trivial
  exact bind_answers hfields fun _ _ _ _ => pure_answers trivial

end Build

namespace Declare

variable {α β : Type} {d : Declarations}

/-! ### Checks, and what is not refused -/

/-- Whether it is answered or refused, the request changes nothing, and its answer has a
property. -/
def Checks (request : Declare α) (d : Declarations) (P : α → Prop) : Prop :=
  (request.run.run d).2 = d ∧ ∀ a, (request.run.run d).1 = .ok a → P a

/-- The request is answered, and the answer and what it leaves have a property. -/
def Commits (request : Declare α) (d : Declarations) (P : α → Declarations → Prop) : Prop :=
  ∃ a d', request.run.run d = (.ok a, d') ∧ P a d'

/-- If the request is refused, everything is as it was. -/
def Traceless (request : Declare α) (d : Declarations) : Prop :=
  ∀ fault d', request.run.run d = (.error fault, d') → d' = d

variable {P : α → Prop} {Q : α → Declarations → Prop}

theorem Checks.traceless {request : Declare α} (h : request.Checks d P) :
    request.Traceless d := by
  intro fault d' hrun
  have hsame := h.1
  rw [hrun] at hsame
  exact hsame

theorem Commits.traceless {request : Declare α} (h : request.Commits d Q) :
    request.Traceless d := by
  obtain ⟨a, d', hrun, -⟩ := h
  intro fault d'' hrefused
  rw [hrun] at hrefused
  cases hrefused

/-- What follows a check is asked of the same state. -/
theorem bind_traceless {x : Declare α} {f : α → Declare β} (hx : x.Checks d P)
    (hf : ∀ a, P a → (f a).Traceless d) : (x >>= f).Traceless d := by
  intro fault d' hrun
  obtain ⟨hsame, hP⟩ := hx
  rw [run_bind] at hrun
  rcases hfirst : x.run.run d with ⟨fault' | a, d₁⟩
  · rw [hfirst] at hrun hsame
    cases hrun
    exact hsame
  · rw [hfirst] at hrun hsame hP
    obtain rfl : d₁ = d := hsame
    exact hf a (hP a rfl) fault d' hrun

/-- What is never refused may follow anything. -/
theorem commit_traceless {x : Declare α} {f : α → Declare β} {S : β → Declarations → Prop}
    (hx : x.Traceless d) (hleaves : x.Leaves d Q) (hf : ∀ a d', Q a d' → (f a).Commits d' S) :
    (x >>= f).Traceless d := by
  intro fault d' hrun
  rw [run_bind] at hrun
  rcases hfirst : x.run.run d with ⟨fault' | a, d₁⟩
  · rw [hfirst] at hrun
    cases hrun
    exact hx _ _ hfirst
  · rw [hfirst] at hrun
    obtain ⟨-, -, hanswered⟩ := hleaves _ _ hfirst
    obtain ⟨b, d₂, hsecond, -⟩ := hf a d₁ (hanswered a rfl)
    exact nomatch hsecond.symm.trans hrun

theorem bind_commits {x : Declare α} {f : α → Declare β} {S : β → Declarations → Prop}
    (hx : x.Commits d Q) (hf : ∀ a d', Q a d' → (f a).Commits d' S) : (x >>= f).Commits d S := by
  obtain ⟨a, d₁, hfirst, hQ⟩ := hx
  obtain ⟨b, d₂, hsecond, hS⟩ := hf a d₁ hQ
  refine ⟨b, d₂, ?_, hS⟩
  rw [run_bind, hfirst]
  exact hsecond

/-! ### The steps of a declaration -/

theorem pure_checks {a : α} (h : P a) : (pure a : Declare α).Checks d P :=
  ⟨rfl, fun _ hb => Except.ok.inj hb ▸ h⟩

theorem throw_checks (fault : Fault) : (throw fault : Declare α).Checks d P :=
  ⟨rfl, fun _ hb => nomatch hb⟩

/-- What is refused goes no further. -/
theorem refuse_checks (fault : Fault) (f : β → Declare α) :
    ((throw fault : Declare β) >>= f).Checks d P := by
  unfold Checks
  rw [run_bind]
  exact ⟨rfl, fun _ hb => nomatch hb⟩

theorem bind_checks {x : Declare α} {f : α → Declare β} {P' : β → Prop} (hx : x.Checks d P)
    (hf : ∀ a, P a → (f a).Checks d P') : (x >>= f).Checks d P' := by
  obtain ⟨hsame, hP⟩ := hx
  unfold Checks
  rw [run_bind]
  rcases hfirst : x.run.run d with ⟨fault | a, d₁⟩
  · rw [hfirst] at hsame
    exact ⟨hsame, fun _ hb => nomatch hb⟩
  · rw [hfirst] at hsame hP
    obtain rfl : d₁ = d := hsame
    exact hf a (hP a rfl)

theorem get_checks : (get : Declare Declarations).Checks d fun state => state = d :=
  ⟨rfl, fun _ hb => (Except.ok.inj hb).symm⟩

theorem plan_checks : plan.Checks d fun plan => plan = d.plan :=
  bind_checks get_checks fun _ hstate => pure_checks (hstate ▸ rfl)

theorem ofExcept_checks (answer : Except Fault α) :
    (ofExcept answer : Declare α).Checks d fun a => answer = .ok a := by
  cases answer with
  | ok a => exact pure_checks rfl
  | error fault => exact throw_checks fault

theorem logic_checks {request : Build α} (h : request.Checks d.circuit P) :
    (logic request).Checks d P := by
  unfold Checks
  rw [run_logic]
  refine ⟨by rw [h.1], fun a ha => h.2 a (request.run.run d.circuit).2 ?_⟩
  exact Prod.ext (ofCircuit_eq_ok_iff.mp ha) rfl

/-- A request that the circuit answers leaves the plan. -/
theorem logic_commits {request : Build α} {J : Circuit → α → Prop}
    (h : request.Answers d.circuit J) : (logic request).Commits d fun _ d' => d'.plan = d.plan := by
  obtain ⟨a, c', hyields, -, -⟩ := h
  refine ⟨a, { d with circuit := c' }, ?_, rfl⟩
  rw [run_logic, show request.run.run d.circuit = (.ok a, c') from hyields]
  rfl

/-- The new plan is put in place, and that is the end of it. -/
theorem setPlan_commits (plan : Plan) (a : α) :
    (do setPlan plan; return a : Declare α).Commits d fun _ _ => True := ⟨a, _, rfl, trivial⟩

theorem expectBit_checks (op : String) (node : NodeId) {c : Circuit} :
    (expectBit op node).Checks c fun _ => c.width node = .ok 1 :=
  Build.matchWidth_checks op 1 node

theorem qualify_checks (name : String) (owner : Option BlockId) :
    (qualify name owner).Checks d fun qualified => d.plan.roster.find? qualified = none := by
  refine bind_checks plan_checks fun plan hplan => ?_
  subst hplan
  refine bind_checks (ofExcept_checks _) fun qualified _ => ?_
  dsimp only
  split
  · exact refuse_checks _ _
  · rename_i hfree
    exact pure_checks (by simpa using hfree)

/-- An action whose name is free is added. -/
theorem enrol_commits {action : Action}
    (hfree : d.plan.roster.find? action.qualifiedName = none) :
    (enrol action).Commits d fun _ _ => True := by
  refine bind_commits ⟨d.plan, d, rfl, rfl, rfl⟩ (Q := fun plan d' => plan = d.plan ∧ d' = d)
    fun plan d' hplan => ?_
  obtain ⟨rfl, rfl⟩ := hplan
  simp only [hfree, Option.isSome_none, Bool.false_eq_true, if_false]
  exact setPlan_commits _ _

theorem methodReady_traceless (ready : Option NodeId) :
    (logic (methodReady ready)).Traceless d := by
  cases ready with
  | none => exact (logic_commits Build.high_answers).traceless
  | some node =>
      refine (logic_checks (P := fun _ => True) ?_).traceless
      exact (expectBit_checks _ node).bind fun _ _ => ⟨rfl, fun _ _ _ => trivial⟩

/-! ### Every declaration -/

theorem block_traceless (name : String) (parent : Option BlockId) :
    (block name parent).Traceless d := by
  refine bind_traceless plan_checks fun plan _ => ?_
  refine bind_traceless (ofExcept_checks _) fun answer _ => ?_
  exact (setPlan_commits _ _).traceless

theorem transaction_traceless (name : String) (owner : Option BlockId) (request : NodeId) :
    (transaction name owner request).Traceless d := by
  refine bind_traceless (logic_checks (expectBit_checks _ request)) fun _ _ => ?_
  refine bind_traceless (qualify_checks name owner) fun qualifiedName hfree => ?_
  have hwire := Build.wire_answers (c := d.circuit) (w := 1) (by decide) (runName qualifiedName)
  refine (bind_commits (logic_commits hwire) fun run d₁ hplan => enrol_commits ?_).traceless
  rw [hplan]
  exact hfree

theorem method_traceless (spec : MethodSpec) : (method spec).Traceless d := by
  refine bind_traceless (qualify_checks _ _) fun qualifiedName hfree => ?_
  dsimp only
  split
  · exact (refuse_checks (P := fun _ => True) _ _).traceless
  refine commit_traceless (methodReady_traceless _) (methodReady_leaves _)
    (S := fun _ _ => True) fun ready d₁ hready => ?_
  -- from here on nothing is refused: wires are made, which leaves the roster, and the action added
  refine bind_commits (logic_commits (Build.wire_answers (by decide) _)) fun run d₂ hplan₂ => ?_
  refine bind_commits (logic_commits (Build.wires_answers _ spec.input)) fun dataIn d₃ hplan₃ => ?_
  refine bind_commits (logic_commits (Build.wires_answers _ spec.output)) fun dataOut d₄ hplan₄ =>
    ?_
  refine bind_commits (enrol_commits ?_) fun id d₅ _ => ⟨_, d₅, rfl, trivial⟩
  rw [hplan₄, hplan₃, hplan₂, hready.1]
  exact hfree

theorem call_traceless (caller callee : ActionId) (enable : NodeId) (arguments : Bundle) :
    (call caller callee enable arguments).Traceless d := by
  refine bind_traceless get_checks fun state _ => ?_
  refine bind_traceless (ofExcept_checks _) fun source _ => ?_
  refine bind_traceless (ofExcept_checks _) fun target _ => ?_
  split
  · exact (throw_checks (P := fun _ => True) _).traceless
  · dsimp only
    split
    · exact (refuse_checks (P := fun _ => True) _ _).traceless
    · exact (setPlan_commits _ _).traceless

theorem couple_traceless (change : Couplings → Roster → Except Fault Couplings) :
    (couple change).Traceless d := by
  intro fault d' hrun
  rw [run_couple] at hrun
  cases hchange : change d.plan.couplings d.plan.roster with
  | ok couplings =>
      rw [hchange] at hrun
      cases hrun
  | error fault' =>
      rw [hchange] at hrun
      exact (Prod.mk.inj hrun).2.symm

/-- The request is one declaration: of a block, an action or a call, or about pairs of actions. -/
inductive Single : {α : Type} → Declare α → Prop
  | block (name : String) (parent : Option BlockId) : Single (block name parent)
  | transaction (name : String) (owner : Option BlockId) (request : NodeId) :
      Single (transaction name owner request)
  | method (spec : MethodSpec) : Single (method spec)
  | call (caller callee : ActionId) (enable : NodeId) (arguments : Bundle) :
      Single (call caller callee enable arguments)
  | conflict (a b : ActionId) (priority : Priority) : Single (conflict a b priority)
  | before (a b : ActionId) : Single (before a b)
  | simultaneous (a : ActionId) (others : List ActionId) : Single (simultaneous a others)
  | alternatives (a : ActionId) (others : List ActionId) : Single (alternatives a others)
  | acknowledge (a b : ActionId) : Single (acknowledge a b)

/-- **A declaration that is refused leaves the design as it was**: its circuit, its blocks and
actions, its calls and all that was said about pairs of actions. -/
theorem refused_leaves_no_trace {request : Declare α} (h : request.Single) {d d' : Declarations}
    {fault : Fault} (hrefused : request.run.run d = (.error fault, d')) : d' = d := by
  suffices htraceless : request.Traceless d from htraceless fault d' hrefused
  cases h with
  | block name parent => exact block_traceless name parent
  | transaction name owner request => exact transaction_traceless name owner request
  | method spec => exact method_traceless spec
  | call caller callee enable arguments => exact call_traceless caller callee enable arguments
  | conflict a b priority => exact couple_traceless _
  | before a b => exact couple_traceless _
  | simultaneous a others => exact couple_traceless _
  | alternatives a others =>
      rw [alternatives_eq]
      exact couple_traceless _
  | acknowledge a b => exact couple_traceless _

/-- A second store of the shop, with results that the first does not have. -/
def secondStore : MethodSpec where
  name := "store"
  owner := some 0
  output := ⟨[⟨"full", 1⟩, ⟨"count", 4⟩], ⟨by decide, by decide⟩⟩

/-- The store for one writer with a name that is taken, a caller too many, and alternatives of
which one is not there: nothing of it is left. -/
theorem privateStore_untouched : ∃ d : Declarations, d.Declared ∧
    (method secondStore).run.run d = (.error (.duplicateAction "shop.store"), d) ∧
    (call 1 2 0 ⟨[(⟨"item", 8⟩, 1)]⟩).run.run d =
      (.error (.singleCallerViolation "shop.store" 2), d) ∧
    (alternatives 0 [2, 7]).run.run d = (.error (.unknownAction 7), d) := by
  have hmethod : ((method secondStore).run.run (privateStore.run.run .empty).2).1 =
      .error (.duplicateAction "shop.store") := by decide +kernel
  have hcall : ((call 1 2 0 ⟨[(⟨"item", 8⟩, 1)]⟩).run.run (privateStore.run.run .empty).2).1 =
      .error (.singleCallerViolation "shop.store" 2) := by decide +kernel
  have halternatives : ((alternatives 0 [2, 7]).run.run (privateStore.run.run .empty).2).1 =
      .error (.unknownAction 7) := by decide +kernel
  refine ⟨_, privateStore_declares.declared, Prod.ext hmethod ?_, Prod.ext hcall ?_,
    Prod.ext halternatives ?_⟩
  · exact refused_leaves_no_trace (.method secondStore) (Prod.ext hmethod rfl)
  · exact refused_leaves_no_trace (.call 1 2 0 _) (Prod.ext hcall rfl)
  · exact refused_leaves_no_trace (.alternatives 0 [2, 7]) (Prod.ext halternatives rfl)

end Declare

end Interlock
