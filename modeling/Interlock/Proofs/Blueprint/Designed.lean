/-
What a blueprint describes is designed with the library.

Reading a blueprint makes declarations and requests to the circuit, and looks up what was declared
before.  The limits of arguments become comparisons with a constant, and arguments are combined with
the combiners of the library, so nothing that a blueprint brings along tells a node from its copy.
-/
import Interlock.Blueprint.Assembly
import Interlock.Proofs.Designed

namespace Interlock

theorem Combination.foldRunning_grows (op : BinaryOp) (shape : Shape) (arguments : List Bundle)
    (runs : List NodeId) : (foldRunning op shape arguments runs).Grows := by
  refine Build.bind_grows (Build.zeros_grows _) fun zeros => Build.foldlM_grows (fun folded site => ?_) _ _
  refine Build.bind_grows (Build.ofExcept_grows _) fun _ => ?_
  refine Build.bind_grows (Build.mapM_grows (fun pair => ?_) _) fun _ => Build.ofExcept_grows _
  refine Build.bind_grows (Build.width_grows _) fun w => ?_
  refine Build.bind_grows (Build.constant_grows _ _) fun idle => ?_
  exact Build.bind_grows (Build.mux_grows _ _ _) fun gated => Build.binary_grows _ _ _

namespace Assembly

variable {α β : Type}

/-! ### What methods bring along -/

theorem judge_grows (limit : Blueprint.Limit) (width : Nat) (arguments : Bundle) :
    (judge limit width arguments).Grows := by
  unfold judge
  split
  · exact Build.high_grows
  · refine Build.bind_grows (Build.ofExcept_grows _) fun argument => ?_
    refine Build.bind_grows (Build.width_grows _) fun w => ?_
    exact Build.bind_grows (Build.constant_grows _ _) fun bound => Build.binary_grows _ _ _

theorem combiner_grows (shape : Shape) (combining : Blueprint.Combining) (arguments : List Bundle)
    (runs : List NodeId) : (combiner shape combining arguments runs).Grows := by
  cases combining with
  | or => exact Combination.foldRunning_grows .or shape arguments runs
  | sum => exact Combination.foldRunning_grows .add shape arguments runs

theorem combiner_uniform (shape : Shape) (combining : Blueprint.Combining) (n : Nat) :
    Combiner.Uniform n (combiner shape combining) := by
  cases combining with
  | or => exact Combination.disjunction_uniform shape n
  | sum => exact Combination.sum_uniform shape n

/-! ### Parts of a blueprint -/

theorem declare_designs {request : Declare α} (h : Designs request) : Designs (declare request) := by
  intro d hd
  have hrun : ((declare request).run.run d).2 = (request.run.run d).2 := by
    unfold declare
    rw [ExceptT.run_adapt]
    rfl
  rw [hrun]
  exact h d hd

theorem logic_designs {request : Build α} (h : request.Builds) : Designs (logic request) := by
  intro d hd
  have hrun : ((logic request).run.run d).2 = ((Declare.logic request).run.run d).2 := by
    rw [Declare.run_logic]
    have hget : (get : Assembly Declarations).run.run d = (.ok d, d) := rfl
    unfold logic
    rw [run_bind, hget]
    dsimp only
    generalize request.run.run d.circuit = outcome
    obtain ⟨answer, circuit⟩ := outcome
    cases answer with
    | ok a => rfl
    | error fault => rfl
  rw [hrun]
  exact Declare.logic_designs h d hd

theorem orFault_designs (fault : Blueprint.Fault) (found : Option α) :
    Designs (orFault fault found) := by
  cases found with
  | none => exact throw_designs fault
  | some a => exact pure_designs a

theorem block_designs (path : Option String) : Designs (block path) := by
  cases path with
  | none => exact pure_designs none
  | some path =>
      exact bind_designs get_designs fun state =>
        bind_designs (orFault_designs _ _) fun id => pure_designs _

theorem action_designs (name : String) : Designs (action name) :=
  bind_designs get_designs fun _ => orFault_designs _ _

theorem signal_designs (source : Blueprint.Signal) (width : Nat) : Designs (signal source width) := by
  cases source with
  | input name => exact bind_designs get_designs fun _ => orFault_designs _ _
  | constant value =>
      unfold signal
      dsimp only
      split
      · exact refuse_designs _ _
      · exact logic_designs (Build.builds_of_step fun c => .constant c _ _)

/-- A limit becomes a comparison with a constant. -/
theorem method_designs (part : Blueprint.Method) : Designs (method part) := by
  refine bind_designs (block_designs _) fun owner => ?_
  refine bind_designs (signal_designs _ _) fun ready => ?_
  refine bind_designs (logic_designs (Build.ofExcept_builds _)) fun input => ?_
  have hcombiner : ∀ combiner', part.combining.map (combiner input) = some combiner' →
      (∀ arguments runs, (combiner' arguments runs).Grows) ∧ ∀ n, Combiner.Uniform n combiner' := by
    intro combiner' hsome
    obtain ⟨combining, -, rfl⟩ := Option.map_eq_some_iff.mp hsome
    exact ⟨combiner_grows input combining, combiner_uniform input combining⟩
  cases part.limit with
  | none =>
      rw [Option.mapM_none, pure_bind]
      exact bind_designs (declare_designs (Declare.method_designs nofun hcombiner)) fun _ =>
        pure_designs ()
  | some limit =>
      rw [Option.mapM_some, map_eq_pure_bind, bind_assoc]
      unfold validator
      rw [bind_assoc]
      refine bind_designs (orFault_designs _ _) fun field => ?_
      rw [pure_bind, pure_bind]
      refine bind_designs (declare_designs (Declare.method_designs (fun validator hsome => ?_)
        hcombiner)) fun _ => pure_designs ()
      cases hsome
      exact ⟨judge_grows limit field.width, judge_uniform limit field.width⟩

theorem argument_designs (part : Blueprint.Call) (field : Field) : Designs (argument part field) :=
  bind_designs (orFault_designs _ _) fun passed => signal_designs passed field.width

theorem arguments_designs (part : Blueprint.Call) (callee : ActionId) :
    Designs (arguments part callee) := by
  have hlookup : Designs (do return ← ofExcept ((← Declare.plan).roster.action callee) :
      Declare Action) := fun d hd => by
    rw [run_bind, show Declare.plan.run.run d = (.ok d.plan, d) from rfl]
    dsimp only
    cases d.plan.roster.action callee with
    | ok target => exact hd
    | error fault => exact hd
  refine bind_designs (declare_designs hlookup) fun target => ?_
  split
  · exact pure_designs _
  · rename_i interface _
    dsimp only
    split
    · exact refuse_designs _ _
    · refine bind_designs (mapM_designs (argument_designs part) _) fun nodes => ?_
      exact logic_designs (Build.builds_of_step fun c => .bind c _ _)

theorem call_designs (part : Blueprint.Call) : Designs (call part) := by
  refine bind_designs (action_designs _) fun caller => bind_designs (action_designs _) fun callee => ?_
  refine bind_designs (signal_designs _ _) fun enable => ?_
  refine bind_designs (arguments_designs part callee) fun arguments => ?_
  exact bind_designs (declare_designs (Declare.call_designs _ _ _ _)) fun _ => pure_designs ()

theorem input_designs (part : Blueprint.Input) : Designs (input part) :=
  bind_designs (logic_designs (Build.builds_of_step fun c => .input c _ _)) fun _ => pure_designs ()

theorem addBlock_designs (part : Blueprint.Block) : Designs (addBlock part) :=
  bind_designs (block_designs _) fun _ =>
    bind_designs (declare_designs (Declare.block_designs _ _)) fun _ => pure_designs ()

theorem transaction_designs (part : Blueprint.Transaction) : Designs (transaction part) :=
  bind_designs (block_designs _) fun _ => bind_designs (signal_designs _ _) fun _ =>
    bind_designs (declare_designs (Declare.transaction_designs _ _ _)) fun _ => pure_designs ()

theorem conflict_designs (part : Blueprint.Conflict) : Designs (conflict part) :=
  bind_designs (action_designs _) fun a => bind_designs (action_designs _) fun b =>
    declare_designs (Declare.couple_designs fun d => .conflict d a b _)

theorem ordering_designs (part : Blueprint.Ordering) : Designs (ordering part) :=
  bind_designs (action_designs _) fun a => bind_designs (action_designs _) fun b =>
    declare_designs (Declare.couple_designs fun d => .before d a b)

theorem together_designs (part : Blueprint.Together) : Designs (together part) := by
  refine bind_designs (action_designs _) fun a => ?_
  refine bind_designs (mapM_designs action_designs _) fun others => declare_designs ?_
  split
  · exact Declare.alternatives_designs a others
  · exact Declare.couple_designs fun d => .simultaneous d a others

theorem coupled_designs (part : Blueprint.Coupled) : Designs (coupled part) :=
  bind_designs (action_designs _) fun a => bind_designs (action_designs _) fun b =>
    declare_designs (Declare.couple_designs fun d => .acknowledge d a b)

theorem declareAll_designs (blueprint : Blueprint) : Designs (declareAll blueprint) :=
  bind_designs (forM_designs input_designs _) fun _ =>
    bind_designs (forM_designs addBlock_designs _) fun _ =>
    bind_designs (forM_designs transaction_designs _) fun _ =>
    bind_designs (forM_designs method_designs _) fun _ =>
    bind_designs (forM_designs call_designs _) fun _ =>
    bind_designs (forM_designs conflict_designs _) fun _ =>
    bind_designs (forM_designs ordering_designs _) fun _ =>
    bind_designs (forM_designs together_designs _) fun _ =>
    forM_designs coupled_designs _

end Assembly

/-- **Whatever a blueprint describes is designed with the library.** -/
theorem Blueprint.declarations_designed {blueprint : Blueprint} {d : Declarations}
    (h : blueprint.declarations = .ok d) : d.Designed := by
  have hdesigned := Assembly.declareAll_designs blueprint .empty Declarations.empty_designed
  unfold declarations at h
  split at h
  · rename_i heq
    rw [heq] at hdesigned
    cases h
    exact hdesigned
  · cases h

end Interlock
