/-
What an assembled blueprint declares.

Everything that a blueprint lists is declared, kind after kind and in the order of the list.  A
request either gives the next action or call just as its part describes it, or it declares none.  So
by induction on the lists, what is declared in the end is what the whole blueprint describes.
-/
import Interlock.Proofs.Blueprint.Described
import Interlock.Proofs.Designed
import Interlock.Proofs.Path

namespace Interlock

open Blueprint

/-! ### What assembling leaves -/

namespace Assembly

variable {α β : Type} {d : Declarations}

/-- If the request is answered, its answer and what it leaves have a property. -/
def Gives (request : Assembly α) (d : Declarations) (P : α → Declarations → Prop) : Prop :=
  ∀ a d', request.run.run d = (.ok a, d') → P a d'

section Gives

variable {P Q : α → Declarations → Prop} {R : β → Declarations → Prop} {request : Assembly α}

theorem Gives.mono (h : request.Gives d P) (hPQ : ∀ a d', P a d' → Q a d') : request.Gives d Q :=
  fun a d' hrun => hPQ a d' (h a d' hrun)

theorem pure_gives {a : α} (h : P a d) : (pure a : Assembly α).Gives d P := by
  intro b d' hrun
  cases hrun
  exact h

theorem throw_gives (fault : Blueprint.Fault) : (throw fault : Assembly α).Gives d P :=
  fun _ _ hrun => nomatch hrun

theorem bind_gives {x : Assembly β} {f : β → Assembly α} (hx : x.Gives d R)
    (hf : ∀ b d', R b d' → (f b).Gives d' P) : (x >>= f).Gives d P := by
  intro a d' hrun
  rw [run_bind] at hrun
  rcases hfirst : x.run.run d with ⟨fault | b, d₁⟩
  · rw [hfirst] at hrun
    cases hrun
  · rw [hfirst] at hrun
    exact hf b d₁ (hx b d₁ hfirst) a d' hrun

theorem get_gives : (get : Assembly Declarations).Gives d fun state d' => state = d ∧ d' = d := by
  intro state d' hrun
  cases hrun
  exact ⟨rfl, rfl⟩

/-- What one part keeps of the list done so far, the whole list keeps. -/
theorem forM_gives {step : β → Assembly Unit} {I : List β → Declarations → Prop}
    (hstep : ∀ done part d, I done d → (step part).Gives d fun _ d' => I (done ++ [part]) d')
    (parts : List β) : ∀ done {d}, I done d → (parts.forM step).Gives d fun _ d' =>
      I (done ++ parts) d' := by
  induction parts with
  | nil =>
      intro done d hd
      exact pure_gives (by rwa [List.append_nil])
  | cons part rest ih =>
      intro done d hd
      refine bind_gives (hstep done part d hd) fun _ d' hd' => ?_
      rw [List.append_cons]
      exact ih (done ++ [part]) hd'

end Gives

/-- The circuit grows, and nothing is declared. -/
structure Extends (d d' : Declarations) : Prop where
  plan_eq : d'.plan = d.plan
  circuit : d.circuit ≤ d'.circuit

theorem Extends.refl (d : Declarations) : Extends d d := ⟨rfl, d.circuit.le_refl⟩

theorem Extends.trans {d d' d'' : Declarations} (h : Extends d d') (h' : Extends d' d'') :
    Extends d d'' :=
  ⟨h'.plan_eq.trans h.plan_eq, Circuit.le_trans h.circuit h'.circuit⟩

/-- What answers an element holds on, and the circuit grows from element to element. -/
theorem mapM_gives {step : α → Assembly β} {R : Circuit → α → β → Prop}
    (hR : ∀ {c c' a b}, c ≤ c' → R c a b → R c' a b)
    (hstep : ∀ a d, (step a).Gives d fun b d' => Extends d d' ∧ R d'.circuit a b) (l : List α) :
    ∀ {d}, (l.mapM step).Gives d fun bs d' =>
      Extends d d' ∧ List.Forall₂ (R d'.circuit) l bs := by
  induction l with
  | nil =>
      intro d
      exact pure_gives ⟨.refl d, .nil⟩
  | cons a rest ih =>
      intro d
      rw [List.mapM_cons]
      refine bind_gives (hstep a d) fun b d₁ hb => ?_
      obtain ⟨hext₁, hb⟩ := hb
      refine bind_gives ih fun bs d₂ hbs => ?_
      obtain ⟨hext₂, hbs⟩ := hbs
      exact pure_gives ⟨hext₁.trans hext₂, .cons (hR hext₂.circuit hb) hbs⟩

/-! ### Requests -/

theorem declare_gives {request : Declare α} {P : α → Declarations → Prop}
    (h : request.Leaves d P) : (declare request).Gives d fun a d' => d.circuit ≤ d'.circuit ∧
      P a d' := by
  intro a d' hrun
  unfold declare at hrun
  rw [ExceptT.run_adapt] at hrun
  change (Except.mapError _ (request.run.run d).1, (request.run.run d).2) = _ at hrun
  rcases hrequest : request.run.run d with ⟨fault | b, d₁⟩
  · rw [hrequest] at hrun
    cases hrun
  · rw [hrequest] at hrun
    cases hrun
    obtain ⟨hle, -, hanswered⟩ := h _ _ hrequest
    exact ⟨hle, hanswered a rfl⟩

theorem logic_gives {request : Build α} (h : request.Grows) : (logic request).Gives d
    fun a d' => Extends d d' ∧ request.Yields d.circuit a d'.circuit := by
  have hget : (get : Assembly Declarations).run.run d = (.ok d, d) := rfl
  intro a d' hrun
  unfold logic at hrun
  rw [run_bind, hget] at hrun
  dsimp only at hrun
  rcases hrequest : request.run.run d.circuit with ⟨fault | b, c⟩
  · rw [hrequest] at hrun
    cases hrun
  · rw [hrequest] at hrun
    cases hrun
    exact ⟨⟨rfl, h.le_of_yields hrequest⟩, hrequest⟩

theorem orFault_gives (fault : Blueprint.Fault) (found : Option α) :
    (orFault fault found).Gives d fun a d' => found = some a ∧ d' = d := by
  cases found with
  | none => exact throw_gives fault
  | some a => exact pure_gives ⟨rfl, rfl⟩

/-! ### Names and signals -/

theorem block_gives (path : Option String) : (block path).Gives d fun owner d' => d' = d ∧
    ∀ name answer, d.plan.blocks.qualify owner name = .ok answer →
      answer = qualified path name := by
  cases path with
  | none =>
      refine pure_gives ⟨rfl, fun name answer hanswer => ?_⟩
      cases hanswer
      rfl
  | some path =>
      refine bind_gives get_gives fun state d₁ hstate => ?_
      obtain ⟨rfl, rfl⟩ := hstate
      refine bind_gives (orFault_gives _ _) fun id d₂ hfind => ?_
      obtain ⟨hid, rfl⟩ := hfind
      refine pure_gives ⟨rfl, fun name answer hanswer => ?_⟩
      obtain ⟨found, hfound, hanswer⟩ := bind_eq_ok_iff.mp hanswer
      rw [(Hierarchy.findPath?_eq_some_iff.mp hid).2.1] at hfound
      cases hfound
      cases hanswer
      rfl

theorem action_gives (name : String) : (action name).Gives d fun a d' => d' = d ∧
    ∃ found, d.plan.roster.actions[a]? = some found ∧ found.qualifiedName = name := by
  refine bind_gives get_gives fun state d₁ hstate => ?_
  obtain ⟨rfl, rfl⟩ := hstate
  exact (orFault_gives _ _).mono fun _ _ hfind => ⟨hfind.2, Roster.exists_of_find? hfind.1⟩

/-- A constant that does not fit is refused. -/
theorem signal_gives (source : Signal) (width : Nat) : (signal source width).Gives d
    fun node d' => Extends d d' ∧ source.Drives d'.circuit width node := by
  cases source with
  | input name =>
      refine bind_gives get_gives fun state d₁ hstate => ?_
      obtain ⟨rfl, rfl⟩ := hstate
      refine (orFault_gives _ _).mono fun node d₂ hnode => ?_
      obtain ⟨hnode, rfl⟩ := hnode
      exact ⟨.refl _, Circuit.exists_of_findInput? hnode⟩
  | constant value =>
      unfold signal
      dsimp only
      split
      · exact bind_gives (R := fun _ _ => False) (throw_gives _) fun _ _ h => h.elim
      · rename_i hlimit
        have hfits := Word.le_top_iff.mp (Nat.le_of_not_lt hlimit)
        refine (logic_gives (Build.constant_grows _ _)).mono fun node d' hlogic => ?_
        obtain ⟨hext, hconstant⟩ := hlogic
        refine ⟨hext, hfits, ?_⟩
        obtain ⟨_, c, hwidth, hshared⟩ := Build.yields_bind_iff.mp hconstant
        have hnode := Build.shared_yields hshared
        rwa [Word.truncate_of_lt hfits] at hnode

/-! ### Every part of a blueprint -/

/-- The circuit grows, and no action and no call is declared. -/
structure Frames (d d' : Declarations) : Prop where
  circuit : d.circuit ≤ d'.circuit
  roster : d'.plan.roster = d.plan.roster
  calls : d'.plan.calls = d.plan.calls

theorem Extends.frames {d' : Declarations} (h : Extends d d') : Frames d d' :=
  ⟨h.circuit, by rw [h.plan_eq], by rw [h.plan_eq]⟩

theorem input_gives (part : Blueprint.Input) : (input part).Gives d fun _ d' => Frames d d' :=
  bind_gives (logic_gives (Build.input_grows _ _)) fun _ _ h => pure_gives h.1.frames

theorem addBlock_gives (part : Blueprint.Block) : (addBlock part).Gives d fun _ d' =>
    Frames d d' := by
  refine bind_gives (block_gives _) fun parent d₁ hparent => ?_
  obtain ⟨rfl, -⟩ := hparent
  refine bind_gives (declare_gives (Declare.block_leaves _ _)) fun _ d₂ hblock => ?_
  obtain ⟨hle, -, blocks, hplan, -⟩ := hblock
  exact pure_gives ⟨hle, by rw [hplan], by rw [hplan]⟩

theorem transaction_gives (part : Transaction) : (transaction part).Gives d fun _ d' =>
    ∃ action, d.circuit ≤ d'.circuit ∧ d'.plan = d.plan.joinedBy action ∧
      part.Describes d'.circuit action := by
  refine bind_gives (block_gives _) fun owner d₁ howner => ?_
  obtain ⟨rfl, hqualify⟩ := howner
  refine bind_gives (signal_gives _ _) fun request d₂ hrequest => ?_
  obtain ⟨hext, hrequest⟩ := hrequest
  refine bind_gives (declare_gives (Declare.transaction_enters _ _ _)) fun _ d₃ henters => ?_
  obtain ⟨hle, -, -, qualifiedName, hqualified, -, -, hd₃⟩ := henters
  rw [hext.plan_eq] at hqualified hd₃
  exact pure_gives ⟨_, Circuit.le_trans hext.circuit hle, by rw [hd₃], rfl,
    hqualify _ _ hqualified, hrequest.mono hle⟩

theorem method_gives (part : Method) : (method part).Gives d fun _ d' =>
    ∃ action, d.circuit ≤ d'.circuit ∧ d'.plan = d.plan.joinedBy action ∧
      part.Describes d'.circuit action := by
  refine bind_gives (block_gives _) fun owner d₁ howner => ?_
  obtain ⟨rfl, hqualify⟩ := howner
  refine bind_gives (signal_gives _ _) fun ready d₂ hready => ?_
  obtain ⟨hext₂, hready⟩ := hready
  refine bind_gives (logic_gives (Build.ofExcept_grows _)) fun input d₃ hinput => ?_
  obtain ⟨hext₃, hinput⟩ := hinput
  have hfields : input.fields = part.input :=
    Shape.fields_of_ofFields (Build.ofExcept_yields_iff.mp hinput).1
  have hext := hext₂.trans hext₃
  -- What is left is declared in one way, whether or not there is a limit.
  have hdeclare : ∀ validator, (∀ limit, part.limit = some limit → ∃ field,
      part.input.find? (·.name == limit.field) = some field ∧
        validator = some (judge limit field.width)) →
        (do
          let _ ← declare (Declare.method
            { name := part.name, owner, ready := some ready, input
              nonexclusive := part.nonexclusive, singleCaller := part.singleCaller, validator
              combiner := part.combining.map (combiner input) }) : Assembly Unit).Gives d₃
            fun _ d' => ∃ action, d₁.circuit ≤ d'.circuit ∧
              d'.plan = d₁.plan.joinedBy action ∧ part.Describes d'.circuit action := by
    intro validator hvalidator
    refine bind_gives (declare_gives (Declare.method_enters _)) fun _ d₄ henters => ?_
    obtain ⟨hle, action, henrols, hdescribes⟩ := henters
    have hqualified := hdescribes.qualified
    rw [hext.plan_eq] at hqualified
    refine pure_gives ⟨action, Circuit.le_trans hext.circuit hle,
      by rw [henrols.plan, hext.plan_eq], hdescribes.isMethod, hqualify _ _ hqualified, ?_,
      hdescribes.dataIn.trans hfields, ?_⟩
    · rw [hdescribes.ready ready rfl]
      exact (hready.mono hext₃.circuit).mono hle
    · intro limit hlimit
      rw [hdescribes.validator]
      exact hvalidator limit hlimit
  cases hlimit : part.limit with
  | none =>
      rw [Option.mapM_none, pure_bind]
      exact hdeclare none fun limit hsome => by rw [hlimit] at hsome; cases hsome
  | some limit =>
      rw [Option.mapM_some, map_eq_pure_bind, bind_assoc]
      unfold validator
      rw [bind_assoc]
      refine bind_gives (orFault_gives _ _) fun field d₄ hfield => ?_
      obtain ⟨hfield, rfl⟩ := hfield
      unfold Shape.field? at hfield
      rw [hfields] at hfield
      rw [pure_bind, pure_bind]
      refine hdeclare _ fun other hother => ?_
      rw [hlimit] at hother
      cases hother
      exact ⟨field, hfield, rfl⟩

theorem argument_gives (part : Call) (field : Field) : (argument part field).Gives d
    fun node d' => Extends d d' ∧ part.Passes d'.circuit field node := by
  refine bind_gives (orFault_gives _ _) fun source d₁ hsource => ?_
  obtain ⟨hsource, rfl⟩ := hsource
  exact (signal_gives source field.width).mono fun _ _ hsignal =>
    ⟨hsignal.1, source, hsource, hsignal.2⟩

/-- Nodes that are bound to fields are, each to its field, as the fields say. -/
theorem forall_entries {R : Field → NodeId → Prop} {bundle : Bundle} {nodes : List NodeId}
    (hnodes : bundle.nodes = nodes) (h : List.Forall₂ R bundle.fields nodes) :
    ∀ field node, (field, node) ∈ bundle.entries → R field node := by
  subst hnodes
  unfold Bundle.fields Bundle.nodes at h
  rw [List.forall₂_map_left_iff, List.forall₂_map_right_iff, List.forall₂_same] at h
  exact fun field node hentry => h _ hentry

theorem mem_of_surplus?_eq_none {part : Call} {fields : List Field}
    (h : surplus? part fields = none) :
    ∀ name ∈ part.arguments.map Prod.fst, ∃ field ∈ fields, field.name = name := by
  intro name hname
  have hknown := List.find?_eq_none.mp h name hname
  simpa using hknown

theorem arguments_gives (part : Call) (callee : ActionId) : (arguments part callee).Gives d
    fun bundle d' => Extends d d' ∧
      (∀ field node, (field, node) ∈ bundle.entries → part.Passes d'.circuit field node) ∧
      ∀ target, d.plan.roster.actions[callee]? = some target → target.isMethod = true →
        ∀ name ∈ part.arguments.map Prod.fst, ∃ field ∈ bundle.fields, field.name = name := by
  have hlookup : (do return ← ofExcept ((← Declare.plan).roster.action callee) :
      Declare Action).Leaves d fun target d' =>
        d.plan.roster.actions[callee]? = some target ∧ d' = d := by
    refine Declare.bind_leaves Declare.plan_leaves fun plan d₁ _ _ hplan => ?_
    obtain ⟨rfl, rfl⟩ := hplan
    exact (Declare.ofExcept_leaves _).mono fun _ _ _ h => ⟨Declare.action_eq_ok h.2.1, h.2.2⟩
  refine bind_gives (declare_gives hlookup) fun target d₁ htarget => ?_
  obtain ⟨-, htarget, rfl⟩ := htarget
  split
  · rename_i hinterface
    refine pure_gives ⟨.refl _, nofun, fun other hother hmethod => ?_⟩
    obtain rfl : target = other := Option.some.inj (htarget.symm.trans hother)
    rw [Action.isMethod, hinterface] at hmethod
    cases hmethod
  · rename_i interface _
    dsimp only
    split
    · exact bind_gives (R := fun _ _ => False) (throw_gives _) fun _ _ h => h.elim
    · rename_i hsurplus
      have hknown := mem_of_surplus?_eq_none (Option.eq_none_iff_forall_ne_some.mpr hsurplus)
      refine bind_gives (mapM_gives (R := part.Passes) (fun hle h => h.mono hle)
        (fun field _ => argument_gives part field) _) fun nodes d₂ hnodes => ?_
      obtain ⟨hext₂, hnodes⟩ := hnodes
      refine (logic_gives (Build.bind_fields_grows _ _)).mono fun bundle d₃ hbundle => ?_
      obtain ⟨hext₃, hbind⟩ := hbundle
      obtain ⟨hfields, hbound, -⟩ := Build.bind_yields hbind
      refine ⟨hext₂.trans hext₃, forall_entries hbound ?_, fun _ _ _ => hfields ▸ hknown⟩
      rw [hfields]
      exact hnodes.imp fun _ _ h => h.mono hext₃.circuit

theorem call_gives (part : Call) : (call part).Gives d fun _ d' => ∃ d₁ site, Extends d d₁ ∧
    d' = { d₁ with plan := { d₁.plan with calls := d₁.plan.calls.push site } } ∧
      part.Describes d₁.circuit d₁.plan.roster site := by
  refine bind_gives (action_gives _) fun caller d₁ hcaller => ?_
  obtain ⟨rfl, hcaller⟩ := hcaller
  refine bind_gives (action_gives _) fun callee d₁ hcallee => ?_
  obtain ⟨rfl, hcallee⟩ := hcallee
  refine bind_gives (signal_gives _ _) fun enable d₂ henable => ?_
  obtain ⟨hext₂, henable⟩ := henable
  refine bind_gives (arguments_gives part callee) fun arguments d₃ harguments => ?_
  obtain ⟨hext₃, hpasses, hknown⟩ := harguments
  refine bind_gives (declare_gives (Declare.call_pushes _ _ _ _)) fun _ d₄ hpushes => ?_
  obtain ⟨-, hfitting, -, hd₄⟩ := hpushes
  have hext := hext₂.trans hext₃
  obtain ⟨found, hfound, hname⟩ := hcallee
  obtain ⟨method, hmethod, hrole, hfields⟩ := hfitting.callee
  rw [hext.plan_eq] at hmethod
  obtain rfl : found = method := Option.some.inj (hfound.symm.trans hmethod)
  rw [hext₂.plan_eq] at hknown
  exact pure_gives ⟨d₃, _, hext, hd₄, hext.plan_eq ▸ hcaller,
    ⟨found, hext.plan_eq ▸ hfound, hname, hfields⟩, henable.mono hext₃.circuit, hpasses,
    hknown found hfound hrole⟩

theorem couple_gives (change : Couplings → Roster → Except Fault Couplings) :
    (declare (Declare.couple change)).Gives d fun _ d' => Frames d d' :=
  (declare_gives (Declare.couple_leaves change)).mono fun _ _ h => ⟨h.1, h.2.1, h.2.2⟩

/-- Looking actions up changes nothing. -/
theorem bind_action_gives {α : Type} {P : α → Declarations → Prop} {name : String}
    {f : ActionId → Assembly α} (hf : ∀ a, (f a).Gives d P) : (action name >>= f).Gives d P :=
  bind_gives (action_gives name) fun a _ h => h.1 ▸ hf a

theorem conflict_gives (part : Blueprint.Conflict) : (conflict part).Gives d fun _ d' =>
    Frames d d' :=
  bind_action_gives fun _ => bind_action_gives fun _ => couple_gives _

theorem ordering_gives (part : Blueprint.Ordering) : (ordering part).Gives d fun _ d' =>
    Frames d d' :=
  bind_action_gives fun _ => bind_action_gives fun _ => couple_gives _

theorem together_gives (part : Blueprint.Together) : (together part).Gives d fun _ d' =>
    Frames d d' := by
  refine bind_action_gives fun a => ?_
  refine bind_gives (mapM_gives (R := fun _ _ _ => True) (fun _ _ => trivial)
    (fun name d => (action_gives name).mono fun _ _ h => ⟨h.1 ▸ .refl d, trivial⟩) part.others)
    fun others d₁ hothers => ?_
  obtain ⟨hext, -⟩ := hothers
  have hcouple : ∀ change, (declare (Declare.couple change)).Gives d₁ fun _ d' => Frames d d' :=
    fun change => (couple_gives change).mono fun _ _ h =>
      ⟨Circuit.le_trans hext.circuit h.circuit, h.roster.trans (by rw [hext.plan_eq]),
        h.calls.trans (by rw [hext.plan_eq])⟩
  split
  · rw [Declare.alternatives_eq]
    exact hcouple _
  · exact hcouple _

theorem coupled_gives (part : Blueprint.Coupled) : (coupled part).Gives d fun _ d' =>
    Frames d d' :=
  bind_action_gives fun _ => bind_action_gives fun _ => couple_gives _

/-! ### Everything that a blueprint lists -/

/-- What declares no action and no call leaves what is declared for the lists so far. -/
theorem forM_represents {β : Type} {transactions : List Transaction} {methods : List Method}
    {calls : List Call} {step : β → Assembly Unit}
    (hstep : ∀ part d, (step part).Gives d fun _ d' => Frames d d') (parts : List β)
    (hd : d.Represents transactions methods calls) :
    (parts.forM step).Gives d fun _ d' => d'.Represents transactions methods calls :=
  forM_gives (I := fun _ d => d.Represents transactions methods calls)
    (fun _ part d hd => (hstep part d).mono fun _ _ h => hd.grow h.circuit h.roster h.calls)
    parts [] hd

theorem transactions_represented (parts : List Transaction) (hd : d.Represents [] [] []) :
    (parts.forM transaction).Gives d fun _ d' => d'.Represents parts [] [] := by
  refine forM_gives (I := fun done d => d.Represents done [] []) (fun done part d hd => ?_) parts []
    hd
  refine (transaction_gives part).mono fun _ _ hgives => ?_
  obtain ⟨action, hle, hplan, hpart⟩ := hgives
  exact hd.addTransaction hle hplan hpart

theorem methods_represented {transactions : List Transaction} (parts : List Method)
    (hd : d.Represents transactions [] []) :
    (parts.forM method).Gives d fun _ d' => d'.Represents transactions parts [] := by
  refine forM_gives (I := fun done d => d.Represents transactions done [])
    (fun done part d hd => ?_) parts [] hd
  refine (method_gives part).mono fun _ _ hgives => ?_
  obtain ⟨action, hle, hplan, hpart⟩ := hgives
  exact hd.addMethod hle hplan hpart

theorem calls_represented {transactions : List Transaction} {methods : List Method}
    (parts : List Call) (hd : d.Represents transactions methods []) :
    (parts.forM call).Gives d fun _ d' => d'.Represents transactions methods parts := by
  refine forM_gives (I := fun done d => d.Represents transactions methods done)
    (fun done part d hd => ?_) parts [] hd
  refine (call_gives part).mono fun _ _ hgives => ?_
  obtain ⟨d₁, site, hext, hpush, hpart⟩ := hgives
  have hframes := hext.frames
  exact (hd.grow hframes.circuit hframes.roster hframes.calls).addCall hpush hpart

/-- **What a blueprint lists is declared in the order of the lists.** -/
theorem declareAll_gives (blueprint : Blueprint) : (declareAll blueprint).Gives .empty fun _ d =>
    d.Represents blueprint.transactions blueprint.methods blueprint.calls := by
  refine bind_gives (forM_represents (fun part _ => input_gives part) _
    Declarations.empty_represents) fun _ d₁ h₁ => ?_
  refine bind_gives (forM_represents (fun part _ => addBlock_gives part) _ h₁) fun _ d₂ h₂ => ?_
  refine bind_gives (transactions_represented _ h₂) fun _ d₃ h₃ => ?_
  refine bind_gives (methods_represented _ h₃) fun _ d₄ h₄ => ?_
  refine bind_gives (calls_represented _ h₄) fun _ d₅ h₅ => ?_
  refine bind_gives (forM_represents (fun part _ => conflict_gives part) _ h₅) fun _ d₆ h₆ => ?_
  refine bind_gives (forM_represents (fun part _ => ordering_gives part) _ h₆) fun _ d₇ h₇ => ?_
  refine bind_gives (forM_represents (fun part _ => together_gives part) _ h₇) fun _ d₈ h₈ => ?_
  exact forM_represents (fun part _ => coupled_gives part) _ h₈

end Assembly

theorem Blueprint.represents_of_declarations {blueprint : Blueprint} {d : Declarations}
    (h : blueprint.declarations = .ok d) :
    d.Represents blueprint.transactions blueprint.methods blueprint.calls := by
  unfold declarations at h
  split at h
  · rename_i heq
    cases h
    exact Assembly.declareAll_gives blueprint () _ heq
  · cases h

end Interlock
