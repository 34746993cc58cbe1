/-
The inventory of a design.

Whatever is declared, and whichever declarations are refused on the way, the tables of a design fit
each other: an action is found by its name and has wires of its own, a call is made by one action to
another and hands over what that one takes, a method for a single caller has one, and a method that
shares its input says how.  Finishing a design looks actions, calls and wires up on the strength of
this and asks no further.

A declaration that is answered adds one action that is new or one call that fits, or it says
something about actions that are there; one that is refused adds nothing but logic.  So it is enough
that the tables go on fitting when one entry is added, and when the circuit grows beneath them.
-/
import Interlock.Proofs.Anchored
import Interlock.Proofs.Ledger

namespace Interlock

/-! ### Call sites by number -/

namespace Calls

variable {calls : Calls}

/-- One more call site is listed last, if it is of the method. -/
theorem byCallee_push (site : CallSite) (m : ActionId) :
    (calls.push site).byCallee m =
      calls.byCallee m ++ if site.callee = m then [(calls.size, site)] else [] := by
  unfold byCallee entries
  rw [push, Array.toList_push, List.zipIdx_append, List.map_append, List.filter_append]
  congr 1
  simp only [List.zipIdx_singleton, List.map_cons, List.map_nil, List.filter_cons, List.filter_nil,
    beq_iff_eq, size, Array.length_toList, Nat.zero_add]

end Calls

namespace Declarations

variable {d d' : Declarations}

/-! ### The tables of a design -/

/-- The tables of a design fit each other. -/
structure Orderly (d : Declarations) : Prop where
  actions : ∀ (a : ActionId) (action : Action), d.plan.roster.actions[a]? = some action →
    action.Equipped d.circuit
  /-- No two actions share a name. -/
  named : ∀ (a b : ActionId) (action other : Action), d.plan.roster.actions[a]? = some action →
    d.plan.roster.actions[b]? = some other → action.qualifiedName = other.qualifiedName → a = b
  /-- No two actions share a wire. -/
  apart : ∀ (a b : ActionId) (action other : Action), d.plan.roster.actions[a]? = some action →
    d.plan.roster.actions[b]? = some other → a ≠ b → action.wires.Disjoint other.wires
  sites : ∀ (id : CallId) (site : CallSite), d.plan.calls.sites[id]? = some site →
    site.Fitting d.circuit d.plan.roster
  single : ∀ (m : ActionId) (method : Action), d.plan.roster.actions[m]? = some method →
    method.isSingleCaller = true → (d.plan.calls.byCallee m).length ≤ 1

theorem empty_orderly : empty.Orderly where
  actions := fun a action h => by simp [empty, Plan.empty, Roster.empty] at h
  named := fun a b action other h => by simp [empty, Plan.empty, Roster.empty] at h
  apart := fun a b action other h => by simp [empty, Plan.empty, Roster.empty] at h
  sites := fun id site h => by simp [empty, Plan.empty, Calls.empty] at h
  single := fun m method h => by simp [empty, Plan.empty, Roster.empty] at h

end Declarations

/-! ### What goes on fitting -/

section Growth

variable {c c' : Circuit} {action : Action} {roster : Roster} {site : CallSite}

theorem Action.Equipped.mono (h : action.Equipped c) (hle : c ≤ c') : action.Equipped c' where
  ready := Circuit.width_of_le hle h.ready
  run := h.run.mono hle
  dataIn := h.dataIn.mono hle
  dataOut := h.dataOut.mono hle
  distinct := h.distinct
  combines := h.combines

theorem Action.Equipped.wires_lt (h : action.Equipped c) :
    ∀ wire ∈ action.wires, wire < c.size := by
  intro wire hwire
  rcases List.mem_cons.mp hwire with rfl | hwire
  · exact h.run.lt_size
  · rcases List.mem_append.mp hwire with hwire | hwire
    · exact h.dataIn.carried.lt_size wire hwire
    · exact h.dataOut.carried.lt_size wire hwire

theorem CallSite.Fitting.mono (h : site.Fitting c roster) (hle : c ≤ c') :
    site.Fitting c' roster where
  caller := h.caller
  callee := h.callee
  distinct := h.distinct
  enable := Circuit.width_of_le hle h.enable
  arguments := h.arguments.mono hle

theorem CallSite.Fitting.join (h : site.Fitting c roster) (newcomer : Action) :
    site.Fitting c (roster.push newcomer) where
  caller := h.caller.imp fun _ => Roster.actions_push_of_some newcomer
  callee := h.callee.imp fun _ hmethod =>
    ⟨Roster.actions_push_of_some newcomer hmethod.1, hmethod.2⟩
  distinct := h.distinct
  enable := h.enable
  arguments := h.arguments

end Growth

namespace Declarations

variable {d d' : Declarations}

/-- The tables may stay as they are while the circuit grows. -/
theorem Orderly.grow (h : d.Orderly) (hle : d.circuit ≤ d'.circuit)
    (hroster : d'.plan.roster = d.plan.roster) (hcalls : d'.plan.calls = d.plan.calls) :
    d'.Orderly where
  actions := by
    rw [hroster]
    exact fun a action haction => (h.actions a action haction).mono hle
  named := by
    rw [hroster]
    exact h.named
  apart := by
    rw [hroster]
    exact h.apart
  sites := by
    rw [hroster, hcalls]
    exact fun id site hsite => (h.sites id site hsite).mono hle
  single := by
    rw [hroster, hcalls]
    exact h.single

theorem Orderly.wires_lt (h : d.Orderly) {a : ActionId} {action : Action}
    (haction : d.plan.roster.actions[a]? = some action) :
    ∀ wire ∈ action.wires, wire < d.circuit.size :=
  (h.actions a action haction).wires_lt

/-- Nobody calls an action that is yet to come. -/
theorem Orderly.byCallee_size (h : d.Orderly) :
    d.plan.calls.byCallee d.plan.roster.size = [] := by
  refine List.eq_nil_iff_forall_not_mem.mpr fun call hcall => ?_
  obtain ⟨hsite, hcallee⟩ := Calls.mem_byCallee.mp hcall
  obtain ⟨method, hmethod, -⟩ := (h.sites call.1 call.2 hsite).callee
  rw [hcallee] at hmethod
  exact absurd (Array.getElem?_eq_some_iff.mp hmethod).1 (Nat.lt_irrefl _)

/-- An action may join that is new. -/
theorem Orderly.join (h : d.Orderly) (hle : d.circuit ≤ d'.circuit) {newcomer : Action}
    (hnew : d.Enrols newcomer d') : d'.Orderly := by
  have hroster : d'.plan.roster = d.plan.roster.push newcomer := by rw [hnew.plan]; rfl
  have hcalls : d'.plan.calls = d.plan.calls := by rw [hnew.plan]; rfl
  have hfree := Roster.find?_eq_none_iff.mp hnew.named
  have hapart : ∀ (a : ActionId) (action : Action), d.plan.roster.actions[a]? = some action →
      action.wires.Disjoint newcomer.wires := fun a action haction wire hwire hwire' =>
    absurd (h.wires_lt haction wire hwire) (Nat.not_lt.mpr (hnew.fresh wire hwire'))
  refine ⟨?_, ?_, ?_, ?_, ?_⟩ <;> rw [hroster]
  · intro a action haction
    rcases Roster.actions_push_cases haction with hold | ⟨-, rfl⟩
    · exact (h.actions a action hold).mono hle
    · exact hnew.equipped
  · intro a b action other haction hother hname
    rcases Roster.actions_push_cases haction with hold | ⟨rfl, rfl⟩
    · rcases Roster.actions_push_cases hother with hold' | ⟨-, rfl⟩
      · exact h.named a b action other hold hold' hname
      · exact absurd hname (hfree a action hold)
    · rcases Roster.actions_push_cases hother with hold' | ⟨rfl, -⟩
      · exact absurd hname.symm (hfree b other hold')
      · rfl
  · intro a b action other haction hother hne
    rcases Roster.actions_push_cases haction with hold | ⟨rfl, rfl⟩
    · rcases Roster.actions_push_cases hother with hold' | ⟨-, rfl⟩
      · exact h.apart a b action other hold hold' hne
      · exact hapart a action hold
    · rcases Roster.actions_push_cases hother with hold' | ⟨rfl, -⟩
      · exact fun wire hwire hwire' => hapart b other hold' hwire' hwire
      · exact absurd rfl hne
  · rw [hcalls]
    exact fun id site hsite => ((h.sites id site hsite).mono hle).join newcomer
  · rw [hcalls]
    intro m method hmethod hsingle
    rcases Roster.actions_push_cases hmethod with hold | ⟨rfl, -⟩
    · exact h.single m method hold hsingle
    · rw [h.byCallee_size]
      exact Nat.zero_le _

/-- A call may be added that fits and is not the second one of a method for a single caller. -/
theorem Orderly.addCall (h : d.Orderly) {site : CallSite}
    (hsite : site.Fitting d.circuit d.plan.roster)
    (hsingle : ∀ method, d.plan.roster.actions[site.callee]? = some method →
      method.isSingleCaller = true → d.plan.calls.byCallee site.callee = []) :
    Orderly { d with plan := { d.plan with calls := d.plan.calls.push site } } where
  actions := h.actions
  named := h.named
  apart := h.apart
  sites := by
    intro id other hother
    rw [Calls.push, Array.getElem?_push] at hother
    split at hother
    · rw [← Option.some.inj hother]
      exact hsite
    · exact h.sites id other hother
  single := by
    intro m method hmethod hone
    dsimp only
    rw [Calls.byCallee_push]
    split
    · rename_i hcallee
      subst hcallee
      rw [hsingle method hmethod hone]
      exact Nat.le_refl 1
    · rw [List.append_nil]
      exact h.single m method hmethod hone

/-! ### Sequences of declarations -/

theorem orderly_of_leaves {α : Type} {request : Declare α} {P : α → Declarations → Prop}
    (h : request.Leaves d P) (hd : d.Orderly)
    (hP : ∀ a d', d.circuit ≤ d'.circuit → P a d' → d'.Orderly) :
    (request.run.run d).2.Orderly := by
  obtain ⟨hle, hrefused, hanswered⟩ := h _ _ rfl
  cases hanswer : (request.run.run d).1 with
  | error fault =>
      have hplan : (request.run.run d).2.plan = d.plan := hrefused fault hanswer
      exact hd.grow hle (by rw [hplan]) (by rw [hplan])
  | ok a => exact hP a _ hle (hanswered a hanswer)

theorem orderly_of_declare (coupling : Coupling) (hd : d.Orderly) :
    (coupling.declare.run.run d).2.Orderly := by
  rw [Coupling.run_declare]
  cases coupling.change d.plan.couplings d.plan.roster with
  | error fault => exact hd
  | ok couplings => exact hd.grow (Circuit.le_refl _) rfl rfl

/-- Every call of the designer leaves the tables in order. -/
theorem Step.orderly (h : Step d d') (hd : d.Orderly) : d'.Orderly := by
  cases h with
  | logic _ request hgrows =>
      refine orderly_of_leaves (Declare.logic_leaves hgrows) hd fun _ _ hle hlogic => ?_
      exact hd.grow hle (by rw [hlogic.1]) (by rw [hlogic.1])
  | block _ name parent =>
      refine orderly_of_leaves (Declare.block_leaves name parent) hd fun _ _ hle hblock => ?_
      obtain ⟨-, blocks, hplan, -⟩ := hblock
      exact hd.grow hle (by rw [hplan]) (by rw [hplan])
  | transaction _ name owner request =>
      refine orderly_of_leaves (Declare.transaction_enrols name owner request) hd
        fun _ _ hle htransaction => ?_
      obtain ⟨action, hnew⟩ := htransaction
      exact hd.join hle hnew
  | method _ spec =>
      refine orderly_of_leaves (Declare.method_enrols spec) hd fun _ _ hle hmethod => ?_
      obtain ⟨action, hnew, -⟩ := hmethod
      exact hd.join hle hnew
  | defineOutput _ method value =>
      refine orderly_of_leaves (Declare.defineOutput_leaves method value) hd
        fun _ _ hle hplan => ?_
      exact hd.grow hle (by rw [hplan]) (by rw [hplan])
  | call _ caller callee enable arguments =>
      refine orderly_of_leaves (Declare.call_enters caller callee enable arguments) hd
        fun _ _ _ hcall => ?_
      obtain ⟨site, hsite, hsingle, rfl⟩ := hcall
      exact hd.addCall hsite hsingle
  | conflict _ a b priority => exact orderly_of_declare (.conflict a b priority) hd
  | before _ a b => exact orderly_of_declare (.before a b) hd
  | simultaneous _ a others => exact orderly_of_declare (.simultaneous a others) hd
  | alternatives _ a others => exact orderly_of_declare (.alternatives a others) hd
  | acknowledge _ a b => exact orderly_of_declare (.acknowledge a b) hd

theorem Steps.orderly (h : Steps d d') (hd : d.Orderly) : d'.Orderly := by
  induction h with
  | refl => exact hd
  | step _ hstep ih => exact hstep.orderly ih

/-- The tables of every design that can be declared fit each other. -/
theorem Declared.orderly (h : Declared d) : d.Orderly := Steps.orderly h empty_orderly

/-! ### Owners -/

/-- Actions are owned by blocks that are there. -/
def Housed (d : Declarations) : Prop :=
  ∀ (a : ActionId) (action : Action), d.plan.roster.actions[a]? = some action →
    ∀ block, action.owner = some block → block < d.plan.blocks.size

theorem empty_housed : empty.Housed := fun a action h => by
  simp [empty, Plan.empty, Roster.empty] at h

/-- More blocks may be added. -/
theorem Housed.grow (h : d.Housed) (hroster : d'.plan.roster = d.plan.roster)
    (hblocks : d.plan.blocks.size ≤ d'.plan.blocks.size) : d'.Housed := by
  intro a action haction block howner
  rw [hroster] at haction
  exact Nat.lt_of_lt_of_le (h a action haction block howner) hblocks

theorem Housed.join (h : d.Housed) {newcomer : Action} (hnew : d.Enrols newcomer d') :
    d'.Housed := by
  intro a action haction block howner
  rw [hnew.plan] at haction ⊢
  rcases Plan.actions_joinedBy_cases haction with rfl | hold
  · exact hnew.owned block howner
  · exact h a action hold block howner

theorem housed_of_leaves {α : Type} {request : Declare α} {P : α → Declarations → Prop}
    (h : request.Leaves d P) (hd : d.Housed) (hP : ∀ a d', P a d' → d'.Housed) :
    (request.run.run d).2.Housed := by
  obtain ⟨-, hrefused, hanswered⟩ := h _ _ rfl
  cases hanswer : (request.run.run d).1 with
  | error fault =>
      have hplan : (request.run.run d).2.plan = d.plan := hrefused fault hanswer
      exact hd.grow (by rw [hplan]) (by rw [hplan])
  | ok a => exact hP a _ (hanswered a hanswer)

theorem housed_of_declare (coupling : Coupling) (hd : d.Housed) :
    (coupling.declare.run.run d).2.Housed := by
  rw [Coupling.run_declare]
  cases coupling.change d.plan.couplings d.plan.roster with
  | error fault => exact hd
  | ok couplings => exact hd.grow rfl (Nat.le_refl _)

/-- Every call of the designer leaves the actions in blocks that are there. -/
theorem Step.housed (h : Step d d') (hd : d.Housed) : d'.Housed := by
  cases h with
  | logic _ request hgrows =>
      refine housed_of_leaves (Declare.logic_leaves hgrows) hd fun _ _ hlogic => ?_
      exact hd.grow (by rw [hlogic.1]) (by rw [hlogic.1])
  | block _ name parent =>
      refine housed_of_leaves (Declare.block_leaves name parent) hd fun _ _ hblock => ?_
      obtain ⟨-, blocks, hplan, hsize⟩ := hblock
      exact hd.grow (by rw [hplan]) (by rw [hplan]; exact hsize)
  | transaction _ name owner request =>
      refine housed_of_leaves (Declare.transaction_enrols name owner request) hd ?_
      exact fun _ _ htransaction => hd.join htransaction.choose_spec
  | method _ spec =>
      refine housed_of_leaves (Declare.method_enrols spec) hd ?_
      exact fun _ _ hmethod => hd.join hmethod.choose_spec.1
  | defineOutput _ method value =>
      refine housed_of_leaves (Declare.defineOutput_leaves method value) hd fun _ _ hplan => ?_
      exact hd.grow (by rw [hplan]) (by rw [hplan])
  | call _ caller callee enable arguments =>
      refine housed_of_leaves (Declare.call_enters caller callee enable arguments) hd
        fun _ _ hcall => ?_
      obtain ⟨site, -, -, rfl⟩ := hcall
      exact hd
  | conflict _ a b priority => exact housed_of_declare (.conflict a b priority) hd
  | before _ a b => exact housed_of_declare (.before a b) hd
  | simultaneous _ a others => exact housed_of_declare (.simultaneous a others) hd
  | alternatives _ a others => exact housed_of_declare (.alternatives a others) hd
  | acknowledge _ a b => exact housed_of_declare (.acknowledge a b) hd

theorem Steps.housed (h : Steps d d') (hd : d.Housed) : d'.Housed := by
  induction h with
  | refl => exact hd
  | step _ hstep ih => exact hstep.housed ih

theorem Declared.housed (h : Declared d) : d.Housed := Steps.housed h empty_housed

/-! ### The inventory -/

theorem Orderly.find?_eq_some_iff (h : d.Orderly) {name : String} {a : ActionId} :
    d.plan.roster.find? name = some a ↔
      ∃ action, d.plan.roster.actions[a]? = some action ∧ action.qualifiedName = name := by
  refine ⟨Roster.exists_of_find?, ?_⟩
  rintro ⟨action, haction, rfl⟩
  cases hfind : d.plan.roster.find? action.qualifiedName with
  | none => exact absurd rfl (Roster.find?_eq_none_iff.mp hfind a action haction)
  | some b =>
      obtain ⟨other, hother, hname⟩ := Roster.exists_of_find? hfind
      rw [h.named a b action other haction hother hname.symm]

/-- Names of actions are taken once. -/
theorem Orderly.distinct (h : d.Orderly) :
    Ledger.Distinct (fun action : Action => some action.qualifiedName)
      d.plan.roster.actions.toList := by
  intro a b action other name haction hother hname hname'
  rw [Array.getElem?_toList] at haction hother
  exact h.named a b action other haction hother (Option.some.inj (hname.trans hname'.symm))

/-- A ledger that is filled action by action has each under its number, finds it by its name and
tells whether one more is enrolled; one of the calls, which have no names, has each under its
number. -/
structure Filed (d : Declarations) : Prop where
  actions : ∃ ledger, Ledger.ofList (fun action : Action => some action.qualifiedName)
      d.plan.roster.actions.toList = some ledger ∧
    ledger.entries = d.plan.roster.entries ∧
    (∀ name, d.plan.roster.find? name = ledger.index[name]?) ∧
    ∀ newcomer : Action, (Declare.enrol newcomer).run.run d =
      match ledger.index[newcomer.qualifiedName]? with
      | some _ => (.error (.duplicateAction newcomer.qualifiedName), d)
      | none => (.ok d.plan.roster.size, ⟨d.circuit, d.plan.joinedBy newcomer⟩)
  calls : ∃ ledger, Ledger.ofList (fun _ : CallSite => (none : Option Unit))
      d.plan.calls.sites.toList = some ledger ∧
    ledger.entries = d.plan.calls.entries

theorem run_enrol (newcomer : Action) : (Declare.enrol newcomer).run.run d =
    match d.plan.roster.find? newcomer.qualifiedName with
    | some _ => (.error (.duplicateAction newcomer.qualifiedName), d)
    | none => (.ok d.plan.roster.size, ⟨d.circuit, d.plan.joinedBy newcomer⟩) := by
  unfold Declare.enrol
  show ((if (d.plan.roster.find? newcomer.qualifiedName).isSome then _ else _ :
    Declare ActionId)).run.run d = _
  cases d.plan.roster.find? newcomer.qualifiedName <;> rfl

/-- Ledgers are never in the way, and have what the tables have. -/
theorem Orderly.filed (h : d.Orderly) : d.Filed where
  actions := by
    obtain ⟨ledger, hledger, hrecords⟩ := h.distinct.exists_ledger
    have hfound : ∀ name, d.plan.roster.find? name = ledger.index[name]? := by
      refine fun name => Option.ext fun a => h.find?_eq_some_iff.trans ?_
      simp [hrecords.index]
    refine ⟨ledger, hledger, hrecords.entries, hfound, fun newcomer => ?_⟩
    rw [run_enrol, hfound]
    rfl
  calls := by
    have hdistinct : Ledger.Distinct (fun _ : CallSite => (none : Option Unit))
        d.plan.calls.sites.toList := fun _ _ _ _ _ _ _ hkey => nomatch hkey
    obtain ⟨ledger, hledger, hrecords⟩ := hdistinct.exists_ledger
    exact ⟨ledger, hledger, hrecords.entries⟩

/-- **Every sequence of declarations leaves the tables of the design in order**, whichever of them
are refused: actions and calls are listed under the numbers they have, which are those of a ledger
that is filled on the way; an action is found by its name and by no other; actions, their wires and
their calls fit each other; and everything that is said about pairs of actions is about actions that
are there. -/
theorem declared_inventory (h : d.Declared) :
    (∀ a action, (a, action) ∈ d.plan.roster.entries ↔ d.plan.roster.actions[a]? = some action) ∧
      (∀ name a, d.plan.roster.find? name = some a ↔
        ∃ action, d.plan.roster.actions[a]? = some action ∧ action.qualifiedName = name) ∧
      (∀ id site, (id, site) ∈ d.plan.calls.entries ↔ d.plan.calls.sites[id]? = some site) ∧
      d.Orderly ∧ d.plan.couplings.Between d.plan.roster.size ∧ d.Filed :=
  ⟨fun _ _ => Roster.mem_entries, fun _ _ => h.orderly.find?_eq_some_iff,
    fun _ _ => Calls.mem_entries, h.orderly, h.anchored.couplings, h.orderly.filed⟩

end Declarations

/-- A store for a single writer, which another writer is refused. -/
def privateStore : Declare Unit := do
  let go ← Declare.logic (Build.input "go" 1)
  let item ← Declare.logic (Build.input "item" 8)
  let shop ← Declare.block "shop" none
  let writer ← Declare.transaction "writer" none go
  let rival ← Declare.transaction "rival" none go
  let store ← Declare.method
    { name := "store"
      owner := shop
      input := ⟨[⟨"item", 8⟩], ⟨by decide, by decide⟩⟩
      singleCaller := true }
  Declare.simultaneous writer [store.action]
  let _ ← Declare.call writer store.action go ⟨[(⟨"item", 8⟩, item)]⟩
  let _ ← Declare.call rival store.action go ⟨[(⟨"item", 8⟩, item)]⟩

theorem privateStore_declares : privateStore.Declares := by
  refine Declare.bind_declares (Declare.logic_declares (Build.input_grows _ _)) fun go => ?_
  refine Declare.bind_declares (Declare.logic_declares (Build.input_grows _ _)) fun item => ?_
  refine Declare.bind_declares (Declare.declares_of_step fun d => .block d _ _) fun shop => ?_
  refine Declare.bind_declares (Declare.transaction_declares _ _ _) fun writer => ?_
  refine Declare.bind_declares (Declare.transaction_declares _ _ _) fun rival => ?_
  refine Declare.bind_declares (Declare.method_declares nofun nofun) fun store => ?_
  refine Declare.bind_declares (Declare.simultaneous_declares _ _) fun _ => ?_
  refine Declare.bind_declares (Declare.call_declares _ _ _ _) fun _ => ?_
  refine Declare.bind_declares (Declare.call_declares _ _ _ _) fun _ => ?_
  exact Declare.pure_declares ()

/-- The second writer is refused, and the tables are in order nevertheless. -/
theorem privateStore_inventory : ∃ d : Declarations,
    privateStore.run.run .empty = (.error (.singleCallerViolation "shop.store" 2), d) ∧
      d.Declared ∧ d.Orderly ∧ d.plan.couplings.Between d.plan.roster.size ∧
      ∃ store, d.plan.roster.actions[2]? = some store ∧ store.qualifiedName = "shop.store" := by
  have hrefused : (privateStore.run.run .empty).1 =
      .error (.singleCallerViolation "shop.store" 2) := by decide +kernel
  have hstore : (privateStore.run.run .empty).2.plan.roster.find? "shop.store" = some 2 := by
    decide +kernel
  have hdeclared := privateStore_declares.declared
  obtain ⟨-, hfind, -, horderly, hcouplings, -⟩ := Declarations.declared_inventory hdeclared
  exact ⟨_, Prod.ext hrefused rfl, hdeclared, horderly, hcouplings, (hfind _ _).mp hstore⟩

end Interlock
