/-
What a blueprint describes.

A blueprint describes a design whose first actions are its transactions, whose other actions are its
methods and whose call sites are its calls, each in the order of the list.  Wherever the blueprint
has a constant, the design has the constant of the width that it is used with, and that it fits.
Whatever is declared later changes nothing of this: actions and calls keep their numbers, and
constants and inputs their nodes.
-/
import Interlock.Blueprint.Assembly
import Interlock.Proofs.Anchored

namespace Interlock

theorem Shape.fields_of_ofFields {fields : List Field} {shape : Shape}
    (h : ofFields fields = .ok shape) : shape.fields = fields := by
  unfold ofFields at h
  split at h
  · cases h
  · cases h
    rfl

namespace Blueprint

/-! ### Parts of a blueprint and what is declared for them -/

/-- The name of an action behind the path of its owner. -/
def qualified (block : Option String) (name : String) : String :=
  match block with
  | none => name
  | some path => path ++ "." ++ name

/-- The node is the constant, of the width and fitting it, or the input. -/
def Signal.Drives (circuit : Circuit) (width : Nat) (node : NodeId) : Signal → Prop
  | .constant value =>
    value < Word.count width ∧ circuit.nodes[node]? = some ⟨width, .constant value⟩
  | .input name => ∃ w, circuit.nodes[node]? = some ⟨w, .input name⟩

/-- The action is the transaction. -/
structure Transaction.Describes (part : Transaction) (circuit : Circuit) (action : Action) :
    Prop where
  isTransaction : action.isTransaction = true
  name_eq : action.qualifiedName = qualified part.block part.name
  request : part.request.Drives circuit 1 action.ready

/-- The action is the method. -/
structure Method.Describes (part : Method) (circuit : Circuit) (action : Action) : Prop where
  isMethod : action.isMethod = true
  name_eq : action.qualifiedName = qualified part.block part.name
  ready : part.ready.Drives circuit 1 action.ready
  input : action.dataIn.fields = part.input
  /-- A limit is on a field of the input, and is judged with the width of the field. -/
  limit : ∀ limit, part.limit = some limit → ∃ field,
    part.input.find? (·.name == limit.field) = some field ∧
      action.validator? = some (Assembly.judge limit field.width)

/-- The node is what the call passes for the field. -/
def Call.Passes (part : Call) (circuit : Circuit) (field : Field) (node : NodeId) : Prop :=
  ∃ source, part.arguments.lookup field.name = some source ∧ source.Drives circuit field.width node

/-- The call site is the call. -/
structure Call.Describes (part : Call) (circuit : Circuit) (roster : Roster) (site : CallSite) :
    Prop where
  caller : ∃ action, roster.actions[site.caller]? = some action ∧
    action.qualifiedName = part.caller
  callee : ∃ method, roster.actions[site.callee]? = some method ∧
    method.qualifiedName = part.callee ∧ site.arguments.fields = method.dataIn.fields
  enable : part.enable.Drives circuit 1 site.enable
  arguments : ∀ field node, (field, node) ∈ site.arguments.entries →
    part.Passes circuit field node
  /-- Whatever is passed is passed for a field. -/
  known : ∀ name ∈ part.arguments.map Prod.fst, ∃ field ∈ site.arguments.fields, field.name = name

variable {c c' : Circuit}

theorem Signal.Drives.mono {source : Signal} {width : Nat} {node : NodeId}
    (h : source.Drives c width node) (hle : c ≤ c') : source.Drives c' width node := by
  cases source with
  | constant value => exact ⟨h.1, Circuit.node_of_le hle h.2 (by simp)⟩
  | input name => exact h.imp fun w hnode => Circuit.node_of_le hle hnode (by simp)

theorem Transaction.Describes.mono {part : Transaction} {action : Action}
    (h : part.Describes c action) (hle : c ≤ c') : part.Describes c' action :=
  { h with request := h.request.mono hle }

theorem Method.Describes.mono {part : Method} {action : Action} (h : part.Describes c action)
    (hle : c ≤ c') : part.Describes c' action :=
  { h with ready := h.ready.mono hle }

theorem Call.Passes.mono {part : Call} {field : Field} {node : NodeId}
    (h : part.Passes c field node) (hle : c ≤ c') : part.Passes c' field node :=
  h.imp fun _ hsource => ⟨hsource.1, hsource.2.mono hle⟩

theorem Call.Describes.mono {part : Call} {roster roster' : Roster} {site : CallSite}
    (h : part.Describes c roster site) (hle : c ≤ c')
    (hroster : ∀ (a : ActionId) (action : Action), roster.actions[a]? = some action →
      roster'.actions[a]? = some action) : part.Describes c' roster' site where
  caller := h.caller.imp fun _ hcaller => ⟨hroster _ _ hcaller.1, hcaller.2⟩
  callee := h.callee.imp fun _ hcallee => ⟨hroster _ _ hcallee.1, hcallee.2⟩
  enable := h.enable.mono hle
  arguments := fun field node hentry => (h.arguments field node hentry).mono hle
  known := h.known

end Blueprint

/-! ### Lists of parts and tables of entries -/

section Listed

variable {α β : Type} {R R' : α → β → Prop} {parts : List α} {entry entry' : Nat → Option β}

/-- Every part has an entry of its own number that is as the part says. -/
def Listed (R : α → β → Prop) (parts : List α) (entry : Nat → Option β) : Prop :=
  ∀ i part, parts[i]? = some part → ∃ b, entry i = some b ∧ R part b

theorem Listed.mono (h : Listed R parts entry)
    (hentry : ∀ i b, entry i = some b → entry' i = some b) (hR : ∀ a b, R a b → R' a b) :
    Listed R' parts entry' := fun i part hpart =>
  (h i part hpart).imp fun b hb => ⟨hentry i b hb.1, hR part b hb.2⟩

theorem Listed.concat (h : Listed R parts entry) {part : α} {b : β}
    (hb : entry parts.length = some b) (hpart : R part b) : Listed R (parts ++ [part]) entry := by
  intro i other hother
  rw [List.getElem?_append] at hother
  split at hother
  · exact h i other hother
  · rw [List.getElem?_singleton] at hother
    split at hother
    · cases hother
      obtain rfl : i = parts.length := by omega
      exact ⟨b, hb, hpart⟩
    · cases hother

end Listed

open Blueprint

namespace Declarations

variable {d d' : Declarations} {transactions : List Transaction} {methods : List Method}
  {calls : List Call}

/-- Whatever is declared is declared later on, under the same number. -/
structure Prolongs (d d' : Declarations) : Prop where
  circuit : d.circuit ≤ d'.circuit
  actions : ∀ (a : ActionId) (action : Action), d.plan.roster.actions[a]? = some action →
    d'.plan.roster.actions[a]? = some action
  sites : ∀ (id : CallId) (site : CallSite), d.plan.calls.sites[id]? = some site →
    d'.plan.calls.sites[id]? = some site

/-- The first actions are the transactions, the others are the methods, and the call sites are the
calls, in the order of the lists. -/
structure Represents (d : Declarations) (transactions : List Transaction) (methods : List Method)
    (calls : List Call) : Prop where
  actions : d.plan.roster.size = transactions.length + methods.length
  sites : d.plan.calls.size = calls.length
  transaction : Listed (fun part action => part.Describes d.circuit action) transactions
    fun i => d.plan.roster.actions[i]?
  method : Listed (fun part action => part.Describes d.circuit action) methods
    fun i => d.plan.roster.actions[transactions.length + i]?
  call : Listed (fun part site => part.Describes d.circuit d.plan.roster site) calls
    fun i => d.plan.calls.sites[i]?

theorem empty_represents : empty.Represents [] [] [] := ⟨rfl, rfl, nofun, nofun, nofun⟩

theorem Represents.prolong (h : d.Represents transactions methods calls) (hd : d.Prolongs d')
    (hactions : d'.plan.roster.size = d.plan.roster.size)
    (hsites : d'.plan.calls.size = d.plan.calls.size) :
    d'.Represents transactions methods calls where
  actions := hactions.trans h.actions
  sites := hsites.trans h.sites
  transaction := h.transaction.mono (fun _ => hd.actions _) fun _ _ hpart => hpart.mono hd.circuit
  method := h.method.mono (fun _ => hd.actions _) fun _ _ hpart => hpart.mono hd.circuit
  call := h.call.mono (fun _ => hd.sites _) fun _ _ hpart => hpart.mono hd.circuit hd.actions

/-- The circuit may grow, and blocks and couplings may be added. -/
theorem Represents.grow (h : d.Represents transactions methods calls) (hle : d.circuit ≤ d'.circuit)
    (hroster : d'.plan.roster = d.plan.roster) (hcalls : d'.plan.calls = d.plan.calls) :
    d'.Represents transactions methods calls :=
  h.prolong ⟨hle, hroster ▸ fun _ _ h => h, hcalls ▸ fun _ _ h => h⟩ (by rw [hroster])
    (by rw [hcalls])

theorem prolongs_of_join (hle : d.circuit ≤ d'.circuit) {newcomer : Action}
    (hplan : d'.plan = d.plan.joinedBy newcomer) : d.Prolongs d' :=
  ⟨hle, hplan ▸ fun _ _ => Roster.actions_push_of_some newcomer, hplan ▸ fun _ _ h => h⟩

theorem Represents.addTransaction {part : Transaction} (h : d.Represents transactions [] [])
    (hle : d.circuit ≤ d'.circuit) {newcomer : Action} (hplan : d'.plan = d.plan.joinedBy newcomer)
    (hpart : part.Describes d'.circuit newcomer) :
    d'.Represents (transactions ++ [part]) [] [] where
  actions := by rw [hplan, Plan.size_joinedBy, h.actions]; simp
  sites := hplan ▸ h.sites
  transaction := by
    have hd := prolongs_of_join hle hplan
    refine Listed.concat (h.transaction.mono (fun _ => hd.actions _)
      fun _ _ hpart => hpart.mono hd.circuit) (b := newcomer) ?_ hpart
    have hsize := h.actions
    rw [List.length_nil, Nat.add_zero] at hsize
    rw [hplan, ← hsize]
    exact Roster.actions_push_size newcomer
  method := nofun
  call := nofun

theorem Represents.addMethod {part : Method} (h : d.Represents transactions methods [])
    (hle : d.circuit ≤ d'.circuit) {newcomer : Action} (hplan : d'.plan = d.plan.joinedBy newcomer)
    (hpart : part.Describes d'.circuit newcomer) :
    d'.Represents transactions (methods ++ [part]) [] where
  actions := by rw [hplan, Plan.size_joinedBy, h.actions]; simp; omega
  sites := hplan ▸ h.sites
  transaction := by
    have hd := prolongs_of_join hle hplan
    exact h.transaction.mono (fun _ => hd.actions _) fun _ _ hpart => hpart.mono hd.circuit
  method := by
    have hd := prolongs_of_join hle hplan
    refine Listed.concat (h.method.mono (fun _ => hd.actions _)
      fun _ _ hpart => hpart.mono hd.circuit) (b := newcomer) ?_ hpart
    rw [hplan, ← h.actions]
    exact Roster.actions_push_size newcomer
  call := nofun

theorem Represents.addCall {part : Call} (h : d.Represents transactions methods calls)
    {site : CallSite}
    (hd' : d' = { d with plan := { d.plan with calls := d.plan.calls.push site } })
    (hpart : part.Describes d.circuit d.plan.roster site) :
    d'.Represents transactions methods (calls ++ [part]) := by
  subst hd'
  have hpush : ∀ (id : CallId) (other : CallSite), d.plan.calls.sites[id]? = some other →
      (d.plan.calls.push site).sites[id]? = some other := by
    intro id other hother
    obtain ⟨hlt, -⟩ := Array.getElem?_eq_some_iff.mp hother
    rw [Calls.push, Array.getElem?_push, if_neg (Nat.ne_of_lt hlt), hother]
  refine ⟨h.actions, ?_, h.transaction, h.method,
    Listed.concat (h.call.mono (fun _ => hpush _) fun _ _ hpart => hpart) (b := site) ?_ hpart⟩
  · have hsize := h.sites
    simp only [Calls.size, Calls.push, Array.size_push, List.length_append, List.length_singleton]
      at hsize ⊢
    omega
  · rw [← h.sites]
    exact Array.getElem?_push_size

end Declarations

end Interlock
