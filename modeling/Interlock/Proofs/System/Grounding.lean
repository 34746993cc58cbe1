/-
Designs that are complete.

Finishing a design drives the run wires of its actions and the wires for the data of its methods; the
designer drives everything else, apart from results that may be left open.  A design is complete if
these wires are all that is missing: what the designer built does not wait for itself, requests,
readies, enables and arguments do not wait for the wires that finishing drives, and validators and
combiners do as they are asked.

Grounding the open results comes first.  It is answered, and from then on every node rests on the
wires that finishing drives, and what the designer hands over to the schedule rests on nothing.
-/
import Interlock.System.Basic
import Interlock.Proofs.Circuit.Transfer
import Interlock.Proofs.Designed
import Interlock.Proofs.Inventory

namespace Interlock

/-! ### Complete designs -/

/-- The wires of an action that finishing drives. -/
def Action.awaited (action : Action) : List NodeId := action.run :: action.dataIn.nodes

theorem Action.isTransaction_or_isMethod (action : Action) :
    action.isTransaction = true ∨ action.isMethod = true := by
  unfold isTransaction isMethod
  cases action.interface? with
  | none => exact .inl rfl
  | some interface => exact .inr rfl

theorem Action.awaited_of_isTransaction {action : Action} (h : action.isTransaction = true) :
    action.awaited = [action.run] := by
  rw [isTransaction, Option.isNone_iff_eq_none] at h
  rw [awaited, dataIn, h]
  rfl

/-- If the method has a way to combine arguments, it is one of the library's, for its own fields. -/
def Action.Folds (method : Action) : Prop :=
  ∀ combiner, method.combiner? = some combiner → ∃ shape : Shape,
    shape.fields = method.dataIn.fields ∧
      (combiner = Combination.disjunction shape ∨ combiner = Combination.sum shape)

namespace Declarations

variable {d : Declarations} {c : Circuit}

/-- The wires that finishing drives. -/
def awaited (d : Declarations) : Set NodeId :=
  {w | ∃ (a : ActionId) (action : Action), d.plan.roster.actions[a]? = some action ∧
    w ∈ action.awaited}

/-- The node does not wait for a wire that finishing drives. -/
def Independent (d : Declarations) (c : Circuit) (node : NodeId) : Prop :=
  ∀ w ∈ d.awaited, ¬ Relation.ReflTransGen c.Reads w node

/-- The wires that finishing drives are the undriven wires, and nothing waits for itself. -/
structure Tidy (d : Declarations) (c : Circuit) : Prop where
  awaited : ∀ w ∈ d.awaited, c.Undriven w
  driven : ∀ w, c.Undriven w → w ∈ d.awaited
  acyclic : ∀ id, Acc c.Reads id

/-- The request for a verdict is made with the library.  Made where nothing of the designer's waits
for what finishing drives that did not do so before, it is answered with a bit that does not wait
for it either, and leaves no other wire undriven. -/
structure Vets (d : Declarations) (request : Build NodeId) : Prop where
  builds : request.Builds
  answered : ∀ c : Circuit, d.circuit ≤ c → c.WellFormed → d.Tidy c →
    (∀ node < d.circuit.size, d.Independent d.circuit node → d.Independent c node) →
      ∃ node c', request.Yields c node c' ∧ c'.width node = .ok 1 ∧ d.Tidy c' ∧
        d.Independent c' node

/-- Nothing is missing but what finishing adds. -/
structure Complete (d : Declarations) : Prop where
  /-- The designer drives no wire that finishing drives. -/
  awaited : ∀ w ∈ d.awaited, d.circuit.Undriven w
  /-- The designer drives every other wire, except that results may be left open. -/
  driven : ∀ w, d.circuit.Undriven w → ∃ (a : ActionId) (action : Action),
    d.plan.roster.actions[a]? = some action ∧ w ∈ action.wires
  acyclic : ∀ id, Acc d.circuit.Reads id
  ready : ∀ (a : ActionId) (action : Action), d.plan.roster.actions[a]? = some action →
    d.Independent d.circuit action.ready
  enable : ∀ (id : CallId) (site : CallSite), d.plan.calls.sites[id]? = some site →
    d.Independent d.circuit site.enable
  arguments : ∀ (id : CallId) (site : CallSite), d.plan.calls.sites[id]? = some site →
    ∀ node ∈ site.arguments.nodes, d.Independent d.circuit node
  validators : ∀ (id : CallId) (site : CallSite), d.plan.calls.sites[id]? = some site →
    ∀ method, d.plan.roster.actions[site.callee]? = some method →
      ∀ validator, method.validator? = some validator → d.Vets (validator site.arguments)
  combiners : ∀ (a : ActionId) (method : Action), d.plan.roster.actions[a]? = some method →
    method.Folds

theorem independent_of_rests (hawaited : ∀ w ∈ d.awaited, c.Undriven w) {node : NodeId}
    (h : c.Rests ∅ node) : d.Independent c node :=
  fun w hw => h.not_waits (hawaited w hw)

theorem Tidy.rests (h : d.Tidy c) (hwell : c.WellFormed) {node : NodeId} (hnode : node < c.size) :
    c.Rests d.awaited node :=
  hwell.rests_of_acc h.driven (h.acyclic node) hnode

theorem Tidy.rests_of_independent (h : d.Tidy c) (hwell : c.WellFormed) {node : NodeId}
    (hnode : node < c.size) (hindependent : d.Independent c node) : c.Rests ∅ node :=
  (h.rests hwell hnode).of_independent fun w hw => .inr (hindependent w hw)

/-! ### Targets -/

/-- The wires of some actions that finishing drives, one action after the other. -/
def targetsOf (entries : List (ActionId × Action)) : List NodeId :=
  entries.flatMap fun entry => entry.2.awaited

theorem targetsOf_cons {entry : ActionId × Action} {rest : List (ActionId × Action)} :
    targetsOf (entry :: rest) = entry.2.awaited ++ targetsOf rest := List.flatMap_cons

/-- All the wires that finishing drives, in the order in which it does. -/
def targets (d : Declarations) : List NodeId :=
  targetsOf d.plan.roster.transactions ++ targetsOf d.plan.roster.methods

theorem mem_targets {w : NodeId} : w ∈ d.targets ↔ w ∈ d.awaited := by
  simp only [targets, targetsOf, List.mem_append, List.mem_flatMap, Prod.exists]
  constructor
  · rintro (⟨a, action, hentry, hw⟩ | ⟨a, action, hentry, hw⟩)
    · exact ⟨a, action, (Roster.mem_transactions.mp hentry).1, hw⟩
    · exact ⟨a, action, (Roster.mem_methods.mp hentry).1, hw⟩
  · rintro ⟨a, action, haction, hw⟩
    rcases action.isTransaction_or_isMethod with htransaction | hmethod
    · exact .inl ⟨a, action, Roster.mem_transactions.mpr ⟨haction, htransaction⟩, hw⟩
    · exact .inr ⟨a, action, Roster.mem_methods.mpr ⟨haction, hmethod⟩, hw⟩

theorem awaited_sublist_wires (action : Action) : action.awaited.Sublist action.wires :=
  (List.sublist_append_left _ _).cons_cons _

/-- Wires of different actions are different. -/
theorem Orderly.flatMap_nodup (h : d.Orderly) {entries : List (ActionId × Action)}
    (hentries : ∀ entry ∈ entries, d.plan.roster.actions[entry.1]? = some entry.2)
    (hnumbers : entries.Pairwise fun entry other => entry.1 ≠ other.1) {f : Action → List NodeId}
    (hf : ∀ action, (f action).Sublist action.wires) :
    (entries.flatMap fun entry => f entry.2).Nodup := by
  refine List.nodup_flatMap.mpr ⟨fun entry hentry => ?_, hnumbers.imp_of_mem ?_⟩
  · exact (h.actions _ _ (hentries entry hentry)).distinct.sublist (hf _)
  · intro entry other hentry hother hne
    exact List.disjoint_of_subset_left (hf _).subset (List.disjoint_of_subset_right (hf _).subset
      (h.apart _ _ _ _ (hentries entry hentry) (hentries other hother) hne))

/-- No wire is driven twice. -/
theorem Orderly.targets_nodup (h : d.Orderly) : d.targets.Nodup := by
  rw [targets, targetsOf, targetsOf, ← List.flatMap_append]
  refine h.flatMap_nodup (fun entry hentry => ?_) (List.pairwise_append.mpr
    ⟨Roster.entries_pairwise.filter _, Roster.entries_pairwise.filter _,
      fun _ hentry _ hother => Roster.ne_of_mem hentry hother⟩) awaited_sublist_wires
  rcases List.mem_append.mp hentry with hentry | hentry
  · exact (Roster.mem_transactions.mp hentry).1
  · exact (Roster.mem_methods.mp hentry).1

/-- A circuit is tidy as long as all the wires that finishing drives are targets. -/
theorem tidy_of_staged {origin : Circuit} (h : origin.Staged d.awaited d.targets c) : d.Tidy c where
  awaited := fun w hw => h.undriven w (mem_targets.mpr hw)
  driven := fun w hw => (h.rests w hw.lt_size).mem_of_undriven hw
  acyclic := by
    intro id
    by_cases hlt : id < c.size
    · exact (h.rests id hlt).acc fun w hw => h.undriven w (mem_targets.mpr hw)
    · exact .intro id fun o ho => absurd (Circuit.Reads.lt_size ho) hlt

theorem Tidy.staged (h : d.Tidy c) {origin : Circuit} (hle : origin ≤ c) (hwell : c.WellFormed)
    (hnodup : d.targets.Nodup) : origin.Staged d.awaited d.targets c :=
  ⟨hle, hwell, fun _ hlt => h.rests hwell hlt, hnodup, fun w hw => h.awaited w (mem_targets.mp hw)⟩

/-! ### Open results -/

/-- The results of some methods that the designer left open. -/
def resultsOf (d : Declarations) (entries : List (ActionId × Action)) : List NodeId :=
  (entries.flatMap fun entry => entry.2.dataOut.nodes).filter fun w => d.circuit.Undriven w

theorem dataOut_sublist_wires (action : Action) : action.dataOut.nodes.Sublist action.wires :=
  (List.sublist_append_right _ _).cons _

theorem Orderly.results_nodup (h : d.Orderly) :
    (d.resultsOf d.plan.roster.methods ++ d.targets).Nodup := by
  have hmethods : ∀ entry ∈ d.plan.roster.methods,
      d.plan.roster.actions[entry.1]? = some entry.2 :=
    fun _ hentry => (Roster.mem_methods.mp hentry).1
  refine List.nodup_append.mpr ⟨(h.flatMap_nodup hmethods (Roster.entries_pairwise.filter _)
    dataOut_sublist_wires).filter _, h.targets_nodup, fun w hw w' hw' => ?_⟩
  rintro rfl
  obtain ⟨⟨m, method⟩, hm, hresult⟩ := List.mem_flatMap.mp (List.mem_filter.mp hw).1
  obtain ⟨a, action, haction, hawaited⟩ := mem_targets.mp hw'
  by_cases heq : a = m
  · subst heq
    have hmethod := hmethods _ hm
    rw [haction] at hmethod
    cases hmethod
    have hdistinct := (h.actions a _ haction).distinct
    rw [Action.wires, ← List.cons_append] at hdistinct
    exact (List.nodup_append.mp hdistinct).2.2 w hawaited w hresult rfl
  · exact h.apart a m action method haction (hmethods _ hm) heq
      ((awaited_sublist_wires action).subset hawaited)
      ((dataOut_sublist_wires method).subset hresult)

/-- An open result is grounded, and then rests on nothing. -/
theorem ground_answers {given : Set NodeId} {later : List NodeId} {wire : NodeId} {w : Nat}
    (hwire : c.IsWire wire w)
    (h : d.circuit.Staged given ([wire].filter (d.circuit.Undriven ·) ++ later) c)
    (hdriven : ¬ d.circuit.Undriven wire → ¬ c.Undriven wire) :
    (Wiring.ground wire).Answers c fun c' _ => d.circuit.Staged given later c' ∧
      (d.circuit.Undriven wire → c'.Rests ∅ wire) := by
  obtain ⟨name, driver, hnode⟩ := hwire
  have hisDriven : c.isDriven wire = .ok driver.isSome := by
    simp [Circuit.isDriven, Circuit.node, hnode, bind, Except.bind]
  unfold Wiring.ground
  refine Build.bind_answers_of_yields (Build.get_yields_iff.mpr ⟨rfl, rfl⟩) ?_
  refine Build.bind_answers_of_yields (Build.ofExcept_yields_iff.mpr ⟨hisDriven, rfl⟩) ?_
  by_cases hopen : d.circuit.Undriven wire
  · rw [List.filter_cons_of_pos (by simpa using hopen)] at h
    obtain ⟨w', name', hundriven⟩ := h.undriven wire List.mem_cons_self
    rw [hnode] at hundriven
    cases hundriven
    have hvalid : Word.ValidWidth w := h.wellFormed.valid wire _ hnode
    have hwidth : c.width wire = .ok w := Circuit.width_eq_ok_iff.mpr ⟨_, hnode, rfl⟩
    refine Build.bind_answers_of_yields (Build.width_yields_iff.mpr ⟨hwidth, rfl⟩) ?_
    refine Build.bind_answers (@Build.constant_makes c _ Circuit.staged_lasts h ∅ w hvalid 0)
      fun low c₁ hle₁ h₁ => ?_
    exact (Build.drive_answers h₁.1 (Circuit.width_of_le hle₁ hwidth) h₁.2).mono
      fun c₂ _ _ h₂ => ⟨h₂.1, fun _ => h₂.2⟩
  · rw [List.filter_cons_of_neg (by simpa using hopen)] at h
    cases driver with
    | none => exact absurd ⟨w, name, hnode⟩ (hdriven hopen)
    | some driver => exact Build.pure_answers ⟨h, fun hwire => absurd hwire hopen⟩

theorem resultsOf_cons {entry : ActionId × Action} {rest : List (ActionId × Action)} :
    d.resultsOf (entry :: rest) =
      entry.2.dataOut.nodes.filter (d.circuit.Undriven ·) ++ d.resultsOf rest := by
  rw [resultsOf, List.flatMap_cons, List.filter_append]
  rfl

/-- The results of all methods are grounded. -/
theorem groundOutputs_answers (hd : d.Orderly) (hwell : d.circuit.WellFormed) (h : d.Complete) :
    (Wiring.groundOutputs d.plan).Answers d.circuit fun g _ =>
      d.circuit.Staged {w | d.circuit.Undriven w} d.targets g ∧
        ∀ entry ∈ d.plan.roster.methods, ∀ w ∈ entry.2.dataOut.nodes,
          d.circuit.Undriven w → g.Rests ∅ w := by
  refine Build.forM_answers
    (I := fun rest => d.circuit.Staged {w | d.circuit.Undriven w} (d.resultsOf rest ++ d.targets))
    (P := fun c entry => ∀ w ∈ entry.2.dataOut.nodes, d.circuit.Undriven w → c.Rests ∅ w)
    (fun _ _ _ hle h w hw hopen => (h w hw hopen).mono hle) ?_ ?_
  · intro entry hentry rest c hle hstaged
    rw [resultsOf_cons, List.append_assoc] at hstaged
    refine Build.forM_answers
      (I := fun nodes => d.circuit.Staged {w | d.circuit.Undriven w}
        (nodes.filter (d.circuit.Undriven ·) ++ (d.resultsOf rest ++ d.targets)))
      (P := fun c w => d.circuit.Undriven w → c.Rests ∅ w)
      (fun _ _ _ hle h hopen => (h hopen).mono hle) (fun wire hwire nodes c' hle' hstaged' => ?_)
      hstaged
    obtain ⟨⟨field, _⟩, hresult, rfl⟩ := List.mem_map.mp hwire
    have hequipped := hd.actions _ _ (Roster.mem_methods.mp hentry).1
    have hle'' := Circuit.le_trans hle hle'
    have hiswire := hequipped.dataOut field _ hresult
    rw [← List.singleton_append, List.filter_append, List.append_assoc] at hstaged'
    exact ground_answers (hiswire.mono hle'') hstaged'
      (mt fun hundriven => hundriven.of_le hle'' hiswire.lt_size)
  · refine ⟨Circuit.le_refl _, hwell, fun id hid => ?_, hd.results_nodup, fun w hw => ?_⟩
    · exact hwell.rests_of_acc (fun _ hw => hw) (h.acyclic id) hid
    · rcases List.mem_append.mp hw with hw | hw
      · simpa using (List.mem_filter.mp hw).2
      · exact h.awaited w (mem_targets.mp hw)

/-- The circuit holds the designer's logic with all results grounded: what is handed over to the
schedule rests on nothing, and everything rests on the wires that finishing drives. -/
structure Grounded (d : Declarations) (g : Circuit) : Prop where
  grown : d.circuit ≤ g
  staged : g.Staged d.awaited d.targets g
  independent : ∀ node < d.circuit.size, d.Independent d.circuit node → g.Rests ∅ node
  ready : ∀ (a : ActionId) (action : Action), d.plan.roster.actions[a]? = some action →
    g.Signal ∅ 1 action.ready
  enable : ∀ (id : CallId) (site : CallSite), d.plan.calls.sites[id]? = some site →
    g.Signal ∅ 1 site.enable
  arguments : ∀ (id : CallId) (site : CallSite), d.plan.calls.sites[id]? = some site →
    site.arguments.Signals g ∅

/-- **A complete design can be grounded.** -/
theorem Complete.grounded (h : d.Complete) (hd : d.Orderly) (hwell : d.circuit.WellFormed) :
    (Wiring.groundOutputs d.plan).Answers d.circuit fun g _ => d.Grounded g := by
  refine (groundOutputs_answers hd hwell h).mono fun g _ hle ⟨hstaged, hresults⟩ => ?_
  -- an undriven wire of the designer is awaited, or it is a result and was grounded
  have hopen : ∀ w, d.circuit.Undriven w → w ∈ d.awaited ∨ g.Rests ∅ w := by
    intro w hw
    obtain ⟨a, action, haction, hwire⟩ := h.driven w hw
    rw [Action.wires, ← List.cons_append] at hwire
    rcases List.mem_append.mp hwire with hwire | hwire
    · exact .inl ⟨a, action, haction, hwire⟩
    · refine .inr (hresults (a, action) (Roster.mem_methods.mpr ⟨haction, ?_⟩) w hwire hw)
      unfold Action.dataOut at hwire
      unfold Action.isMethod
      cases hinterface : action.interface? with
      | none =>
          rw [hinterface] at hwire
          cases hwire
      | some interface => rfl
  have hindependent : ∀ node < d.circuit.size, d.Independent d.circuit node → g.Rests ∅ node := by
    intro node hlt hnode
    have hrests : d.circuit.Rests {w | d.circuit.Undriven w} node :=
      hwell.rests_of_acc (fun _ hw => hw) (h.acyclic node) hlt
    have hgrounded : d.circuit.Rests {w | g.Rests ∅ w} node := by
      refine hrests.of_independent fun w hw => ?_
      exact (hopen w hw).symm.imp_right fun hawaited => hnode w hawaited
    exact (hgrounded.mono hle).trans fun _ hw => hw
  have hsignal : ∀ {node : NodeId} {w : Nat}, d.circuit.width node = .ok w →
      d.Independent d.circuit node → g.Signal ∅ w node := fun hw hnode =>
    ⟨Circuit.width_of_le hle hw, hindependent _ (Circuit.lt_size_of_width hw) hnode⟩
  refine ⟨hle, ⟨g.le_refl, hstaged.wellFormed, fun id hid => ?_, hstaged.distinct,
    hstaged.undriven⟩, hindependent, fun a action haction => ?_, fun id site hsite => ?_,
    fun id site hsite field node hentry => ?_⟩
  · exact (hstaged.rests id hid).trans fun w hw =>
      (hopen w hw).elim .given fun hrests => hrests.weaken
  · exact hsignal (hd.actions a action haction).ready (h.ready a action haction)
  · exact hsignal (hd.sites id site hsite).enable (h.enable id site hsite)
  · exact hsignal ((hd.sites id site hsite).arguments field node hentry)
      (h.arguments id site hsite node (List.mem_map.mpr ⟨_, hentry, rfl⟩))

end Declarations

end Interlock
