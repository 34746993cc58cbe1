/-
Designs that are made with the library.

Such a design is declared by calls of the designer; its circuit is built with the requests of the
library alone, and the validators and combiners that its methods bring along do not tell a node from
its copy.  Every declaration keeps a design so, whether it is answered or refused.  Nor does a
design have any validators and combiners but those that its declarations were given.  A blueprint is
read by such declarations, its limits become comparisons with a constant, and its methods combine
arguments as the library does: so whatever a blueprint describes is designed with the library.
-/
import Interlock.Proofs.Anchored
import Interlock.Proofs.Uniform

namespace Interlock

/-! ### Circuits -/

namespace Build

variable {α β : Type}

/-- Whether it is answered or refused, the request makes requests of the library only. -/
def Builds (request : Build α) : Prop := ∀ c : Circuit, Circuit.Steps c (request.run.run c).2

theorem builds_of_step {request : Build α}
    (h : ∀ c : Circuit, Circuit.Step c (request.run.run c).2) : request.Builds :=
  fun c => .step (.refl c) (h c)

theorem pure_builds (a : α) : (pure a : Build α).Builds := fun c => .refl c

theorem throw_builds (fault : Circuit.Fault) : (throw fault : Build α).Builds := fun c => .refl c

theorem bind_builds {x : Build α} {f : α → Build β} (hx : x.Builds) (hf : ∀ a, (f a).Builds) :
    (x >>= f).Builds :=
  run_bind_trans (T := Circuit.Steps) Circuit.Steps.trans hx hf

theorem ofExcept_builds (answer : Except Circuit.Fault α) : (ofExcept answer : Build α).Builds := by
  cases answer with
  | ok a => exact pure_builds a
  | error fault => exact throw_builds fault

theorem width_builds (id : NodeId) : (width id).Builds := by
  intro c
  rw [run_width]
  exact .refl c

theorem matchWidths_builds (op : String) (left right : Nat) :
    (matchWidths op left right).Builds := by
  unfold matchWidths
  split
  · exact pure_builds ()
  · exact throw_builds _

end Build

/-! ### Designs -/

/-- The design is declared, its circuit built and its logic described with what the library has. -/
structure Declarations.Designed (d : Declarations) : Prop where
  declared : d.Declared
  built : d.circuit.Built
  uniform : d.Uniform

section Designs

variable {ε α β : Type}

/-- Whether it is answered or refused, the request leaves a design that is made with the library. -/
def Designs (request : ExceptT ε (StateM Declarations) α) : Prop :=
  ∀ d : Declarations, d.Designed → (request.run.run d).2.Designed

theorem pure_designs (a : α) : Designs (pure a : ExceptT ε (StateM Declarations) α) := fun _ h => h

theorem throw_designs (fault : ε) : Designs (throw fault : ExceptT ε (StateM Declarations) α) :=
  fun _ h => h

theorem get_designs : Designs (get : ExceptT ε (StateM Declarations) Declarations) := fun _ h => h

theorem bind_designs {x : ExceptT ε (StateM Declarations) α}
    {f : α → ExceptT ε (StateM Declarations) β} (hx : Designs x) (hf : ∀ a, Designs (f a)) :
    Designs (x >>= f) :=
  run_bind_trans (T := fun d d' : Declarations => d.Designed → d'.Designed)
    (fun h h' hd => h' (h hd)) hx hf

/-- What is refused goes no further. -/
theorem refuse_designs (fault : ε) (f : β → ExceptT ε (StateM Declarations) α) :
    Designs ((throw fault : ExceptT ε (StateM Declarations) β) >>= f) := by
  intro d hd
  rw [run_bind]
  exact hd

theorem mapM_designs {f : α → ExceptT ε (StateM Declarations) β} (hf : ∀ a, Designs (f a))
    (l : List α) : Designs (l.mapM f) := by
  induction l with
  | nil => exact pure_designs []
  | cons a rest ih =>
      rw [List.mapM_cons]
      exact bind_designs (hf a) fun _ => bind_designs ih fun _ => pure_designs _

theorem forM_designs {f : α → ExceptT ε (StateM Declarations) Unit} (hf : ∀ a, Designs (f a))
    (l : List α) : Designs (l.forM f) := by
  induction l with
  | nil => exact pure_designs ()
  | cons a rest ih => exact bind_designs (hf a) fun _ => ih

end Designs

/-! ### Declarations -/

namespace Declarations

variable {d d' : Declarations}

theorem empty_designed : empty.Designed where
  declared := .refl empty
  built := .refl _
  uniform := fun id action h => by simp [empty, Plan.empty, Roster.empty] at h

end Declarations

/-! ### What the actions bring along -/

theorem Validator.Uniform.mono {n n' : Nat} {validator : Validator} (h : validator.Uniform n)
    (hle : n ≤ n') : validator.Uniform n' :=
  fun k a b hfixes => h k a b (hfixes.fewer hle)

theorem Combiner.Uniform.mono {n n' : Nat} {combiner : Combiner} (h : combiner.Uniform n)
    (hle : n ≤ n') : combiner.Uniform n' :=
  fun k arguments arguments' runs runs' hfixes =>
    h k arguments arguments' runs runs' (hfixes.fewer hle)

namespace Declarations

variable {d d' : Declarations}

/-- All validators and combiners that the actions bring along are such. -/
def Furnished (V : Validator → Prop) (C : Combiner → Prop) (d : Declarations) : Prop :=
  ∀ (a : ActionId) (action : Action), d.plan.roster.actions[a]? = some action →
    (∀ validator, action.validator? = some validator → V validator) ∧
      ∀ combiner, action.combiner? = some combiner → C combiner

namespace Furnished

variable {V : Validator → Prop} {C : Combiner → Prop}

theorem congr (h : d.Furnished V C) (hroster : d'.plan.roster = d.plan.roster) :
    d'.Furnished V C := by
  unfold Furnished
  rw [hroster]
  exact h

theorem join (h : d.Furnished V C) {newcomer : Action} (hplan : d'.plan = d.plan.joinedBy newcomer)
    (hvalidator : ∀ validator, newcomer.validator? = some validator → V validator)
    (hcombiner : ∀ combiner, newcomer.combiner? = some combiner → C combiner) :
    d'.Furnished V C := by
  intro a action haction
  rw [hplan] at haction
  rcases Plan.actions_joinedBy_cases haction with rfl | hold
  · exact ⟨hvalidator, hcombiner⟩
  · exact h a action hold

/-- A design that is furnished with what is uniform is uniform itself. -/
theorem uniform (h : d.Furnished (Validator.Uniform d.circuit.size)
    (Combiner.Uniform d.circuit.size)) : d.Uniform := fun a action haction =>
  ⟨(h a action haction).1, (h a action haction).2⟩

end Furnished

/-- What is uniform stays so while the circuit grows. -/
theorem Uniform.furnished (h : d.Uniform) (hle : d.circuit ≤ d'.circuit) :
    d.Furnished (Validator.Uniform d'.circuit.size) (Combiner.Uniform d'.circuit.size) := by
  have hsize := Circuit.size_le_of_le hle
  intro a action haction
  obtain ⟨hvalidator, hcombiner⟩ := h a action haction
  exact ⟨fun validator hsome => (hvalidator validator hsome).mono hsize,
    fun combiner hsome => (hcombiner combiner hsome).mono hsize⟩

end Declarations

/-! ### What is declared is built with the library -/

namespace Declare

variable {α β : Type}

/-- Whether it is answered or refused, the declaration builds with the requests of the library. -/
def Builds (request : Declare α) : Prop :=
  ∀ d : Declarations, Circuit.Steps d.circuit (request.run.run d).2.circuit

theorem pure_builds (a : α) : (pure a : Declare α).Builds := fun _ => .refl _

theorem throw_builds (fault : Fault) : (throw fault : Declare α).Builds := fun _ => .refl _

theorem plan_builds : plan.Builds := fun _ => .refl _

theorem setPlan_builds (plan : Plan) : (setPlan plan).Builds := fun _ => .refl _

theorem bind_builds {x : Declare α} {f : α → Declare β} (hx : x.Builds) (hf : ∀ a, (f a).Builds) :
    (x >>= f).Builds :=
  run_bind_trans (T := fun d d' : Declarations => Circuit.Steps d.circuit d'.circuit)
    Circuit.Steps.trans hx hf

/-- What is refused goes no further. -/
theorem refuse_builds (fault : Fault) (f : β → Declare α) :
    ((throw fault : Declare β) >>= f).Builds := by
  intro d
  rw [run_bind]
  exact .refl _

theorem ofExcept_builds (answer : Except Fault α) : (ofExcept answer : Declare α).Builds := by
  cases answer with
  | ok a => exact pure_builds a
  | error fault => exact throw_builds fault

theorem logic_builds {request : Build α} (h : request.Builds) : (logic request).Builds := by
  intro d
  rw [run_logic]
  exact h d.circuit

theorem expectBit_builds (op : String) (node : NodeId) : (expectBit op node).Builds :=
  Build.bind_builds (Build.width_builds node) fun _ => Build.matchWidths_builds _ _ _

theorem methodReady_builds (ready : Option NodeId) : (methodReady ready).Builds := by
  cases ready with
  | none => exact Build.builds_of_step .high
  | some node => exact Build.bind_builds (expectBit_builds _ node) fun _ => Build.pure_builds node

theorem qualify_builds (name : String) (owner : Option BlockId) : (qualify name owner).Builds := by
  refine bind_builds plan_builds fun plan => bind_builds (ofExcept_builds _) fun qualified => ?_
  dsimp only
  split
  · exact refuse_builds _ _
  · exact pure_builds _

theorem enrol_builds (action : Action) : (enrol action).Builds := by
  refine bind_builds plan_builds fun plan => ?_
  dsimp only
  split
  · exact refuse_builds _ _
  · exact bind_builds (setPlan_builds _) fun _ => pure_builds _

theorem block_builds (name : String) (parent : Option BlockId) : (block name parent).Builds :=
  bind_builds plan_builds fun _ => bind_builds (ofExcept_builds _) fun _ =>
    bind_builds (setPlan_builds _) fun _ => pure_builds _

theorem transaction_builds (name : String) (owner : Option BlockId) (request : NodeId) :
    (transaction name owner request).Builds := by
  refine bind_builds (logic_builds (expectBit_builds _ _)) fun _ => ?_
  refine bind_builds (qualify_builds name owner) fun qualifiedName => ?_
  refine bind_builds (logic_builds (Build.builds_of_step fun c => .wire c _ _)) fun run => ?_
  exact enrol_builds _

theorem method_builds (spec : MethodSpec) : (method spec).Builds := by
  refine bind_builds (qualify_builds _ _) fun qualifiedName => ?_
  dsimp only
  split
  · exact refuse_builds _ _
  · refine bind_builds (logic_builds (methodReady_builds _)) fun ready => ?_
    refine bind_builds (logic_builds (Build.builds_of_step fun c => .wire c _ _)) fun run => ?_
    refine bind_builds (logic_builds (Build.builds_of_step fun c => .wires c _ _)) fun dataIn => ?_
    refine bind_builds (logic_builds (Build.builds_of_step fun c => .wires c _ _)) fun dataOut => ?_
    exact bind_builds (enrol_builds _) fun _ => pure_builds _

theorem call_builds (caller callee : ActionId) (enable : NodeId) (arguments : Bundle) :
    (call caller callee enable arguments).Builds := by
  refine bind_builds (fun _ => .refl _) fun state => ?_
  refine bind_builds (ofExcept_builds _) fun source => ?_
  refine bind_builds (ofExcept_builds _) fun target => ?_
  split
  · exact throw_builds _
  · dsimp only
    split
    · exact refuse_builds _ _
    · exact bind_builds (setPlan_builds _) fun _ => pure_builds _

theorem couple_builds (change : Couplings → Roster → Except Fault Couplings) :
    (couple change).Builds :=
  bind_builds plan_builds fun _ => bind_builds (ofExcept_builds _) fun _ => setPlan_builds _

theorem couple_leaves (change : Couplings → Roster → Except Fault Couplings) {d : Declarations} :
    (couple change).Leaves d fun _ d' =>
      d'.plan.roster = d.plan.roster ∧ d'.plan.calls = d.plan.calls := by
  refine bind_leaves plan_leaves fun plan d₁ _ _ hplan => ?_
  obtain ⟨rfl, rfl⟩ := hplan
  refine bind_leaves (ofExcept_leaves _) fun couplings d₂ _ _ hcouplings => ?_
  obtain ⟨-, rfl⟩ := hcouplings
  refine (setPlan_leaves _).mono fun _ _ _ hset => ?_
  rw [hset]
  exact ⟨rfl, rfl⟩

/-! ### What is declared stays a design -/

variable {d d' : Declarations}

theorem uniform_of_roster (hd : d.Uniform) (hle : d.circuit ≤ d'.circuit)
    (hroster : d'.plan.roster = d.plan.roster) : d'.Uniform :=
  ((hd.furnished hle).congr hroster).uniform

theorem uniform_of_join (hd : d.Uniform) (hle : d.circuit ≤ d'.circuit) {newcomer : Action}
    (hplan : d'.plan = d.plan.joinedBy newcomer) (hnewcomer : newcomer.Uniform d'.circuit.size) :
    d'.Uniform :=
  ((hd.furnished hle).join hplan hnewcomer.validator hnewcomer.combiner).uniform

/-- A declaration is judged by what it leaves if it is answered. -/
theorem designs_of_leaves {request : Declare α} {P : Declarations → α → Declarations → Prop}
    (hstep : ∀ d : Declarations, Declarations.Step d (request.run.run d).2)
    (hbuilds : request.Builds) (hleaves : ∀ d, request.Leaves d (P d))
    (hP : ∀ d a d', d.Uniform → d.circuit ≤ d'.circuit → P d a d' → d'.Uniform) :
    Designs request := by
  intro d hd
  refine ⟨.step hd.declared (hstep d), hd.built.trans (hbuilds d), ?_⟩
  obtain ⟨hle, hrefused, hanswered⟩ := hleaves d _ _ rfl
  cases hanswer : (request.run.run d).1 with
  | error fault =>
      have hplan : (request.run.run d).2.plan = d.plan := hrefused fault hanswer
      exact uniform_of_roster hd.uniform hle (by rw [hplan])
  | ok a => exact hP d a _ hd.uniform hle (hanswered a hanswer)

theorem logic_designs {request : Build α} (h : request.Builds) : Designs (logic request) :=
  have hgrows : request.Grows := fun c => (h c).le
  designs_of_leaves (fun d => .logic d request hgrows) (logic_builds h)
    (fun _ => logic_leaves hgrows) fun _ _ _ huniform hle hlogic =>
      uniform_of_roster huniform hle (by rw [hlogic.1])

theorem block_designs (name : String) (parent : Option BlockId) : Designs (block name parent) := by
  refine designs_of_leaves (fun d => .block d name parent) (block_builds name parent)
    (fun _ => block_leaves name parent) fun d _ d' huniform hle hblock => ?_
  obtain ⟨-, blocks, hplan, -⟩ := hblock
  exact uniform_of_roster huniform hle (by rw [hplan])

theorem transaction_designs (name : String) (owner : Option BlockId) (request : NodeId) :
    Designs (transaction name owner request) := by
  refine designs_of_leaves (fun d => .transaction d name owner request)
    (transaction_builds name owner request) (fun _ => transaction_leaves name owner request)
    fun d _ d' huniform hle htransaction => ?_
  obtain ⟨-, -, qualifiedName, rfl⟩ := htransaction
  refine uniform_of_join huniform hle rfl
    ⟨fun validator hvalidator => ?_, fun combiner hcombiner => ?_⟩
  · cases hvalidator
  · cases hcombiner

theorem method_designs {spec : MethodSpec}
    (hvalidator : ∀ validator, spec.validator = some validator →
      (∀ arguments, (validator arguments).Grows) ∧ ∀ n, validator.Uniform n)
    (hcombiner : ∀ combiner, spec.combiner = some combiner →
      (∀ arguments runs, (combiner arguments runs).Grows) ∧ ∀ n, combiner.Uniform n) :
    Designs (method spec) := by
  refine designs_of_leaves (fun d => .method d spec (fun v hv => (hvalidator v hv).1)
    fun f hf => (hcombiner f hf).1) (method_builds spec) (fun _ => method_leaves spec)
    fun d _ d' huniform hle hmethod => ?_
  obtain ⟨action, hplan, -, hv, hf⟩ := hmethod
  refine uniform_of_join huniform hle hplan ⟨fun validator hsome => ?_, fun combiner hsome => ?_⟩
  · exact (hvalidator validator (hv ▸ hsome)).2 _
  · exact (hcombiner combiner (hf ▸ hsome)).2 _

theorem call_designs (caller callee : ActionId) (enable : NodeId) (arguments : Bundle) :
    Designs (call caller callee enable arguments) := by
  refine designs_of_leaves (fun d => .call d caller callee enable arguments)
    (call_builds caller callee enable arguments)
    (fun _ => call_leaves caller callee enable arguments) fun d _ d' huniform hle hcall => ?_
  obtain ⟨site, -, rfl⟩ := hcall
  exact uniform_of_roster huniform hle rfl

theorem couple_designs {change : Couplings → Roster → Except Fault Couplings}
    (hstep : ∀ d : Declarations, Declarations.Step d ((couple change).run.run d).2) :
    Designs (couple change) :=
  designs_of_leaves hstep (couple_builds change) (fun _ => couple_leaves change)
    fun _ _ _ huniform hle hcouple => uniform_of_roster huniform hle hcouple.1

theorem alternatives_designs (a : ActionId) (others : List ActionId) :
    Designs (alternatives a others) := by
  have hstep := fun d => Declarations.Step.alternatives d a others
  rw [alternatives_eq] at *
  exact couple_designs hstep

/-! ### What a design is furnished with -/

variable {V : Validator → Prop} {C : Combiner → Prop}

/-- Whether it is answered or refused, the declaration brings no others along. -/
def Furnishes (V : Validator → Prop) (C : Combiner → Prop) (request : Declare α) : Prop :=
  ∀ d : Declarations, d.Furnished V C → (request.run.run d).2.Furnished V C

theorem Furnishes.furnished {request : Declare α} (h : request.Furnishes V C) :
    (request.run.run .empty).2.Furnished V C :=
  h _ fun a action haction => by simp [Declarations.empty, Plan.empty, Roster.empty] at haction

theorem pure_furnishes (a : α) : (pure a : Declare α).Furnishes V C := fun _ h => h

theorem bind_furnishes {x : Declare α} {f : α → Declare β} (hx : x.Furnishes V C)
    (hf : ∀ a, (f a).Furnishes V C) : (x >>= f).Furnishes V C :=
  run_bind_trans (T := fun d d' : Declarations => d.Furnished V C → d'.Furnished V C)
    (fun h h' hd => h' (h hd)) hx hf

theorem furnishes_of_leaves {request : Declare α} {P : Declarations → α → Declarations → Prop}
    (hleaves : ∀ d, request.Leaves d (P d))
    (hP : ∀ d a d', P d a d' → d.Furnished V C → d'.Furnished V C) : request.Furnishes V C := by
  intro d hd
  obtain ⟨-, hrefused, hanswered⟩ := hleaves d _ _ rfl
  cases hanswer : (request.run.run d).1 with
  | error fault => exact hd.congr (congrArg Plan.roster (hrefused fault hanswer))
  | ok a => exact hP d a _ (hanswered a hanswer) hd

theorem logic_furnishes {request : Build α} (h : request.Grows) :
    (logic request).Furnishes V C :=
  furnishes_of_leaves (fun _ => logic_leaves h) fun _ _ _ hlogic hd =>
    hd.congr (congrArg Plan.roster hlogic.1)

theorem transaction_furnishes (name : String) (owner : Option BlockId) (request : NodeId) :
    (transaction name owner request).Furnishes V C := by
  refine furnishes_of_leaves (fun _ => transaction_leaves name owner request)
    fun d _ d' htransaction hd => ?_
  obtain ⟨-, -, qualifiedName, rfl⟩ := htransaction
  exact hd.join rfl nofun nofun

theorem method_furnishes {spec : MethodSpec}
    (hvalidator : ∀ validator, spec.validator = some validator → V validator)
    (hcombiner : ∀ combiner, spec.combiner = some combiner → C combiner) :
    (method spec).Furnishes V C := by
  refine furnishes_of_leaves (fun _ => method_leaves spec) fun d _ d' hmethod hd => ?_
  obtain ⟨action, hplan, -, hv, hf⟩ := hmethod
  exact hd.join hplan (hv ▸ hvalidator) (hf ▸ hcombiner)

theorem call_furnishes (caller callee : ActionId) (enable : NodeId) (arguments : Bundle) :
    (call caller callee enable arguments).Furnishes V C := by
  refine furnishes_of_leaves (fun _ => call_leaves caller callee enable arguments)
    fun d _ d' hcall hd => ?_
  obtain ⟨site, -, rfl⟩ := hcall
  exact hd.congr rfl

end Declare

end Interlock
