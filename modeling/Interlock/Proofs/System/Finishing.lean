/-
What a complete design is finished to.

A design that is declared refers only to what is there: its calls, couplings and blocks, and what is
found of its candidates.  If it is complete it can be grounded, and if there is no contention to
refuse it for it is connected and closes no loop.  So it is finished, or refused for its contention.

That a design is complete can often be read off: when its nodes read only what was there before
them, and none reads a wire that finishing drives.  The validators of the library, which compare an
argument with a constant, do as they are asked.
-/
import Interlock.Proofs.Blueprint.Designed
import Interlock.Proofs.Hierarchy
import Interlock.Proofs.System.Completion

namespace Interlock

variable {d : Declarations} {c : Circuit}

/-! ### What is looked up -/

/-- Every number by which a design, or what is found of it, refers to something is a number of
something. -/
structure Declarations.InRange (d : Declarations) : Prop where
  calls : d.plan.calls.Between d.plan.roster.size
  couplings : d.plan.couplings.Between d.plan.roster.size
  owners : ∀ (a : ActionId) (action : Action), d.plan.roster.actions[a]? = some action →
    ∀ block, action.owner = some block → ∃ root path,
      d.plan.blocks.root block = .ok root ∧ d.plan.blocks.path root = .ok path
  slate : ∀ reach slate, Reach.ofPlan d.plan = .ok reach → Slate.ofReach reach = .ok slate →
    slate.InRange
  order : ∀ contention, Contention.ofPlan d.plan = .ok contention →
    ∀ i ∈ contention.order, i < contention.size

theorem Declarations.Orderly.between (h : d.Orderly) : d.plan.calls.Between d.plan.roster.size := by
  intro id site hsite
  obtain ⟨caller, hcaller⟩ := (h.sites id site hsite).caller
  obtain ⟨callee, hcallee, -⟩ := (h.sites id site hsite).callee
  exact ⟨(Array.getElem?_eq_some_iff.mp hcaller).1, (Array.getElem?_eq_some_iff.mp hcallee).1⟩

theorem Declarations.Declared.inRange (hd : d.Declared) : d.InRange where
  calls := hd.orderly.between
  couplings := hd.anchored.couplings
  owners := fun a action haction block howner =>
    Hierarchy.exists_root (hd.housed a action haction block howner)
  slate := fun _ _ hreach hslate => Slate.ofReach_inRange (Reach.ofPlan_followed hreach) hslate
  order := by
    intro contention hcontention i hi
    obtain ⟨reach, -, hof⟩ := bind_eq_ok_iff.mp hcontention
    exact (Contention.ofReach_workedOut hof).mem_order.mp hi

/-! ### Validators of the library -/

namespace Declarations

/-- A validator does as it is asked if its bit rests on nothing, wherever the designer's bits do. -/
theorem Orderly.vets_of_makes (hd : d.Orderly) {request : Build NodeId} (hbuilds : request.Builds)
    (h : ∀ c, d.Scheduling d.circuit d.targets c →
      (∀ node < d.circuit.size, d.Independent d.circuit node → c.Rests ∅ node) →
        request.Makes c (d.Scheduling d.circuit d.targets) ∅ 1) : d.Vets request := by
  refine ⟨hbuilds, fun c hle hwell htidy hfree => ?_⟩
  obtain ⟨node, c', hyields, -, hc', hsignal⟩ := h c (htidy.staged hle hwell hd.targets_nodup)
    fun node hlt hnode => htidy.rests_of_independent hwell
      (Nat.lt_of_lt_of_le hlt (Circuit.size_le_of_le hle)) (hfree node hlt hnode)
  have htidy' : d.Tidy c' := tidy_of_staged hc'
  exact ⟨node, c', hyields, hsignal.width, htidy',
    independent_of_rests htidy'.awaited hsignal.rests⟩

end Declarations

theorem Assembly.judge_builds (limit : Blueprint.Limit) (width : Nat) (arguments : Bundle) :
    (judge limit width arguments).Builds := by
  unfold judge
  split
  · exact Build.builds_of_step fun c => .high c
  · refine Build.bind_builds (Build.ofExcept_builds _) fun argument => ?_
    refine Build.bind_builds (Build.width_builds _) fun w => ?_
    refine Build.bind_builds (Build.builds_of_step fun c => .constant c _ _) fun bound => ?_
    exact Build.builds_of_step fun c => .binary c _ _ _

/-- A limit on an argument is checked as a complete design asks for. -/
theorem Assembly.judge_vets (hd : d.Orderly) (hwell : d.circuit.WellFormed) {arguments : Bundle}
    (harguments : arguments.Carried d.circuit)
    (hfree : ∀ node ∈ arguments.nodes, d.Independent d.circuit node) {limit : Blueprint.Limit}
    (hfield : arguments.fields.any (·.name == limit.field) = true) (width : Nat) :
    d.Vets (judge limit width arguments) := by
  refine hd.vets_of_makes (judge_builds limit width arguments) fun c hc hrests => ?_
  unfold judge
  split
  · exact Build.high_makes Circuit.staged_lasts hc
  · have hentry : (arguments.entries.find? (·.1.name == limit.field)).isSome = true := by
      rw [List.find?_isSome]
      obtain ⟨field, hmem, hname⟩ := List.any_eq_true.mp hfield
      obtain ⟨entry, hentry, rfl⟩ := List.mem_map.mp hmem
      exact ⟨entry, hentry, hname⟩
    obtain ⟨⟨field, node⟩, hfind⟩ := Option.isSome_iff_exists.mp hentry
    have hmem := List.mem_of_find?_eq_some hfind
    have hnode : arguments.node limit.field = .ok node := by rw [Bundle.node, hfind]
    have hwidth := harguments field node hmem
    have hargument : c.Signal ∅ field.width node :=
      ⟨Circuit.width_of_le hc.grown hwidth, hrests node (Circuit.lt_size_of_width hwidth)
        (hfree node (List.mem_map.mpr ⟨_, hmem, rfl⟩))⟩
    have hvalid : Word.ValidWidth field.width := Build.valid_of_width hwell hwidth
    refine Build.bind_answers_of_yields (Build.ofExcept_yields_iff.mpr ⟨hnode, rfl⟩) ?_
    refine Build.bind_answers_of_yields (Build.width_yields_iff.mpr ⟨hargument.width, rfl⟩) ?_
    refine Build.bind_answers (@Build.constant_makes c _ Circuit.staged_lasts hc ∅ _ hvalid _)
      fun bound c₁ hle₁ h₁ => ?_
    exact Build.binary_makes Circuit.staged_lasts h₁.1 .lt (hargument.mono hle₁) h₁.2

/-! ### Designs that can be seen to be complete -/

namespace Declarations

/-- Nodes read only nodes before them, and nothing that the designer built reads, or is, a wire that
finishing drives. -/
structure Plain (d : Declarations) : Prop where
  awaited : ∀ w ∈ d.targets, d.circuit.Undriven w
  driven : ∀ w < d.circuit.size, d.circuit.Undriven w →
    ∃ entry ∈ d.plan.roster.entries, w ∈ entry.2.wires
  reads : ∀ id < d.circuit.size, ∀ o ∈ d.circuit.operandsOf id, o < id ∧ o ∉ d.targets
  ready : ∀ entry ∈ d.plan.roster.entries, entry.2.ready ∉ d.targets
  sites : ∀ entry ∈ d.plan.calls.entries, entry.2.enable ∉ d.targets ∧
    ∀ node ∈ entry.2.arguments.nodes, node ∉ d.targets

instance (d : Declarations) : Decidable d.Plain :=
  decidable_of_iff
    ((∀ w ∈ d.targets, d.circuit.Undriven w) ∧
      (∀ w < d.circuit.size, d.circuit.Undriven w →
        ∃ entry ∈ d.plan.roster.entries, w ∈ entry.2.wires) ∧
      (∀ id < d.circuit.size, ∀ o ∈ d.circuit.operandsOf id, o < id ∧ o ∉ d.targets) ∧
      (∀ entry ∈ d.plan.roster.entries, entry.2.ready ∉ d.targets) ∧
      ∀ entry ∈ d.plan.calls.entries, entry.2.enable ∉ d.targets ∧
        ∀ node ∈ entry.2.arguments.nodes, node ∉ d.targets)
    ⟨fun ⟨h₁, h₂, h₃, h₄, h₅⟩ => ⟨h₁, h₂, h₃, h₄, h₅⟩,
      fun h => ⟨h.awaited, h.driven, h.reads, h.ready, h.sites⟩⟩

theorem Plain.reads_of_reads (h : d.Plain) {o id : NodeId} (hreads : d.circuit.Reads o id) :
    o < id ∧ o ∉ d.targets :=
  h.reads id hreads.lt_size o hreads

/-- What is no wire that finishing drives does not wait for one, as nothing reads one. -/
theorem Plain.independent (h : d.Plain) {node : NodeId} (hnode : node ∉ d.targets) :
    d.Independent d.circuit node := by
  intro w hw hreaches
  rcases hreaches.cases_head with rfl | ⟨id, hreads, -⟩
  · exact hnode (mem_targets.mpr hw)
  · exact (h.reads_of_reads hreads).2 (mem_targets.mpr hw)

/-- A plain design is complete if its methods judge and combine arguments as they are asked. -/
theorem Plain.complete (h : d.Plain)
    (hvalidators : ∀ (id : CallId) (site : CallSite), d.plan.calls.sites[id]? = some site →
      ∀ method, d.plan.roster.actions[site.callee]? = some method →
        ∀ validator, method.validator? = some validator → d.Vets (validator site.arguments))
    (hcombiners : ∀ (a : ActionId) (method : Action), d.plan.roster.actions[a]? = some method →
      method.Folds) :
    d.Complete where
  awaited := fun w hw => h.awaited w (mem_targets.mpr hw)
  driven := by
    intro w hw
    obtain ⟨⟨a, action⟩, hentry, hwire⟩ := h.driven w hw.lt_size hw
    exact ⟨a, action, Roster.mem_entries.mp hentry, hwire⟩
  acyclic := by
    intro id
    induction id using Nat.strong_induction_on with
    | _ id ih => exact .intro id fun o ho => ih o (h.reads_of_reads ho).1
  ready := fun a action haction => h.independent (h.ready _ (Roster.mem_entries.mpr haction))
  enable := fun id site hsite => h.independent (h.sites _ (Calls.mem_entries.mpr hsite)).1
  arguments := fun id site hsite node hnode =>
    h.independent ((h.sites _ (Calls.mem_entries.mpr hsite)).2 node hnode)
  validators := hvalidators
  combiners := hcombiners

end Declarations

/-! ### Finishing -/

/-- Every action was judged, and there is a node for every candidate and for every call. -/
structure Completed (d : Declarations) (system : System) : Prop where
  judged : ∃ grounded accepted judged, (Wiring.groundOutputs d.plan).Yields d.circuit () grounded ∧
    (Wiring.acceptAll d.plan).Yields grounded accepted judged ∧
      ∀ a < d.plan.roster.size, (accepted.lookup a).isSome = true
  runnable : system.wiring.runnable.length = system.contention.size
  grants : system.wiring.grants.length = system.contention.size
  callRuns : system.wiring.callRuns.length = d.plan.calls.size

/-- **A complete design is finished, or refused for its contention**: for a circle of calls, for
actions that can neither run together nor apart, for a candidate that excludes itself, or for a
circle of preferences.  Nothing is asked of the circuit that it refuses, no wire is left undriven or
driven twice, no loop is closed, and nothing is looked up that is not there. -/
theorem finish_completes (hd : d.Declared) (hbuilt : d.circuit.Built) (h : d.Complete) :
    d.InRange ∧
      ((∃ system, d.finish .eager = .ok system ∧ Completed d system) ∨
        ∃ fault, d.finish .eager = .error fault ∧ Contention.ofPlan d.plan = .error fault ∧
          fault.OfContention) := by
  have horderly := hd.orderly
  obtain ⟨_, g, hground, -, hg⟩ := h.grounded horderly hbuilt.wellFormed
  refine ⟨hd.inRange, ?_⟩
  cases hcontention : Contention.ofPlan d.plan with
  | error fault =>
      refine .inr ⟨fault, ?_, rfl, Contention.ofPlan_eq_error horderly.between hcontention⟩
      exact bind_eq_error_iff.mpr (.inr ⟨_, runOn_eq_ok_iff.mpr hground,
        bind_eq_error_iff.mpr (.inl hcontention)⟩)
  | ok contention =>
      obtain ⟨reach, hreach, hof⟩ := bind_eq_ok_iff.mp hcontention
      obtain ⟨wiring, wired, hconnect, -, hconnected⟩ := Wiring.connect_answers h horderly hg
        (Reach.ofPlan_followed hreach) (Contention.ofReach_workedOut hof)
      obtain ⟨accepted, judged, haccept, -, -, -, hall⟩ :=
        Wiring.acceptAll_answers h horderly hg hg.staged
      obtain ⟨order, horder⟩ := hconnected.wellFormed.exists_evaluationOrder hconnected.rests
      obtain ⟨evaluator, hevaluator⟩ := Evaluator.exists_of_evaluationOrder horder
      refine .inl ⟨⟨d.plan, contention, wiring, evaluator, Policy.eager.name⟩, ?_,
        ⟨g, accepted, judged, hground, haccept, hall⟩, hconnected.runnable, hconnected.grants,
        hconnected.callRuns⟩
      exact finish_eq_ok_iff.mpr
        ⟨g, wired, hground, hcontention, hconnect, hevaluator, rfl, rfl⟩

/-- The amounts that a shop sells, and what it counts of them. -/
def amounts : Shape := ⟨[⟨"amount", 8⟩], ⟨by decide, by decide⟩⟩

def totals : Shape := ⟨[⟨"total", 8⟩], ⟨by decide, by decide⟩⟩

/-- A shop that counts what it sells and what is brought back, up to a hundred at once.  The total
is left open. -/
def countingShop : Declare Unit := do
  let go ← Declare.logic (Build.input "go" 1)
  let back ← Declare.logic (Build.input "back" 1)
  let amount ← Declare.logic (Build.input "amount" 8)
  let buyer ← Declare.transaction "buyer" none go
  let porter ← Declare.transaction "porter" none back
  let count ← Declare.method
    { name := "count"
      input := amounts
      output := totals
      nonexclusive := true
      validator := some (Assembly.judge ⟨"amount", 101⟩ 8)
      combiner := some (Combination.sum amounts) }
  let sell ← Declare.method { name := "sell", input := amounts }
  let _ ← Declare.call buyer sell.action go ⟨[(⟨"amount", 8⟩, amount)]⟩
  let _ ← Declare.call sell.action count.action go ⟨[(⟨"amount", 8⟩, amount)]⟩
  let _ ← Declare.call porter count.action back ⟨[(⟨"amount", 8⟩, amount)]⟩

theorem countingShop_designs : Designs countingShop := by
  refine bind_designs (Declare.logic_designs (Build.builds_of_step fun c => .input c _ _))
    fun go => ?_
  refine bind_designs (Declare.logic_designs (Build.builds_of_step fun c => .input c _ _))
    fun back => ?_
  refine bind_designs (Declare.logic_designs (Build.builds_of_step fun c => .input c _ _))
    fun amount => ?_
  refine bind_designs (Declare.transaction_designs _ _ _) fun buyer => ?_
  refine bind_designs (Declare.transaction_designs _ _ _) fun porter => ?_
  refine bind_designs (Declare.method_designs (fun validator hvalidator => ?_)
    fun combiner hcombiner => ?_) fun count => ?_
  · cases hvalidator
    exact ⟨Assembly.judge_grows _ _, Assembly.judge_uniform _ _⟩
  · cases hcombiner
    exact ⟨Combination.foldRunning_grows _ _, Combination.sum_uniform _⟩
  refine bind_designs (Declare.method_designs nofun nofun) fun sell => ?_
  refine bind_designs (Declare.call_designs _ _ _ _) fun _ => ?_
  refine bind_designs (Declare.call_designs _ _ _ _) fun _ => ?_
  refine bind_designs (Declare.call_designs _ _ _ _) fun _ => ?_
  exact pure_designs ()

theorem countingShop_designed : (countingShop.run.run .empty).2.Designed :=
  countingShop_designs _ Declarations.empty_designed

/-- The shop judges and combines amounts, and nothing else. -/
theorem countingShop_furnished : (countingShop.run.run .empty).2.Furnished
    (· = Assembly.judge ⟨"amount", 101⟩ 8) (· = Combination.sum amounts) := by
  refine Declare.Furnishes.furnished ?_
  refine Declare.bind_furnishes (Declare.logic_furnishes (Build.input_grows _ _)) fun go => ?_
  refine Declare.bind_furnishes (Declare.logic_furnishes (Build.input_grows _ _)) fun back => ?_
  refine Declare.bind_furnishes (Declare.logic_furnishes (Build.input_grows _ _)) fun amount => ?_
  refine Declare.bind_furnishes (Declare.transaction_furnishes _ _ _) fun buyer => ?_
  refine Declare.bind_furnishes (Declare.transaction_furnishes _ _ _) fun porter => ?_
  refine Declare.bind_furnishes (Declare.method_furnishes (fun _ h => (Option.some.inj h).symm)
    fun _ h => (Option.some.inj h).symm) fun count => ?_
  refine Declare.bind_furnishes (Declare.method_furnishes nofun nofun) fun sell => ?_
  refine Declare.bind_furnishes (Declare.call_furnishes _ _ _ _) fun _ => ?_
  refine Declare.bind_furnishes (Declare.call_furnishes _ _ _ _) fun _ => ?_
  refine Declare.bind_furnishes (Declare.call_furnishes _ _ _ _) fun _ => ?_
  exact Declare.pure_furnishes ()

theorem countingShop_complete : (countingShop.run.run .empty).2.Complete := by
  have hplain : (countingShop.run.run .empty).2.Plain := by decide +kernel
  have hamounts : ∀ action ∈ (countingShop.run.run .empty).2.plan.roster.actions.toList,
      (action.validator?.isSome || action.combiner?.isSome) = true →
        action.dataIn.fields = amounts.fields := by
    decide +kernel
  have hdesigned := countingShop_designed
  have hfurnished := countingShop_furnished
  generalize (countingShop.run.run .empty).2 = d at *
  have horderly := hdesigned.declared.orderly
  have hfields : ∀ (a : ActionId) (action : Action), d.plan.roster.actions[a]? = some action →
      (action.validator?.isSome || action.combiner?.isSome) = true →
        action.dataIn.fields = amounts.fields := fun a action haction =>
    hamounts action (Array.mem_toList_iff.mpr (Array.mem_of_getElem? haction))
  refine hplain.complete (fun id site hsite method hmethod validator hvalidator => ?_)
    fun a method hmethod combiner hcombiner => ?_
  · have hfitting := horderly.sites id site hsite
    obtain ⟨target, htarget, -, hgiven⟩ := hfitting.callee
    rw [hmethod] at htarget
    cases htarget
    obtain rfl := (hfurnished _ method hmethod).1 validator hvalidator
    refine Assembly.judge_vets horderly hdesigned.built.wellFormed hfitting.arguments
      (fun node hnode => hplain.independent ((hplain.sites _ (Calls.mem_entries.mpr hsite)).2 node
        hnode)) ?_ 8
    rw [hgiven, hfields _ method hmethod (by rw [hvalidator]; rfl)]
    decide
  · obtain rfl := (hfurnished a method hmethod).2 combiner hcombiner
    refine ⟨amounts, ?_, .inr rfl⟩
    exact (hfields a method hmethod (by rw [hcombiner, Option.isSome_some, Bool.or_true])).symm

/-- The shop is finished. -/
theorem countingShop_completed : ∃ system,
    (countingShop.run.run .empty).2.finish .eager = .ok system ∧
      Completed (countingShop.run.run .empty).2 system ∧ system.contention.size = 2 ∧
        (countingShop.run.run .empty).2.InRange := by
  obtain ⟨hrange, h⟩ := finish_completes countingShop_designed.declared countingShop_designed.built
    countingShop_complete
  have hpasses : (countingShop.run.run .empty).2.passes .empty
      (fun system _ => system.contention.size == 2) = true := by
    decide +kernel
  obtain ⟨system, valuation, hfinish, -, hsize⟩ := exists_of_passes hpasses
  obtain ⟨system', hfinish', hcompleted⟩ | ⟨fault, hrefused, -⟩ := h
  · rw [hfinish] at hfinish'
    cases hfinish'
    exact ⟨system, hfinish, hcompleted, eq_of_beq hsize, hrange⟩
  · rw [hfinish] at hrefused
    cases hrefused

end Interlock
