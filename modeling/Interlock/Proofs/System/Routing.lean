/-
Which arguments reach a method.

A method that has no way of its own to combine arguments, but that has arguments, is exclusive:
the declaration of any other is refused.  So of its call sites one happens at most, and where the
wiring combines the arguments of all of them by or, all but those of one are masked.  A method with
one call site has nothing to combine: its input is the arguments of the site in every cycle.
-/
import Interlock.Proofs.System.Exclusion

namespace Interlock

/-- What a method without a combiner is given in a cycle. -/
structure System.Routes (system : System) (valuation : Valuation) (m : ActionId)
    (method : Action) : Prop where
  /-- The fields of the input are those of the arguments of every call site. -/
  shape : ∀ call ∈ system.calls.byCallee m, call.2.arguments.fields = method.dataIn.fields
  /-- Without a call site, all fields are zero. -/
  none : system.calls.byCallee m = [] → ∀ word ∈ valuation.fields method.dataIn, word = 0
  /-- With one call site, the fields are its arguments. -/
  only : ∀ call, system.calls.byCallee m = [call] →
    valuation.fields method.dataIn = valuation.fields call.2.arguments
  /-- With several call sites, the fields are the arguments of the one that happens, if the method
  runs. -/
  running : 2 ≤ (system.calls.byCallee m).length → system.Runs valuation m →
    ∃ call ∈ system.calls.byCallee m, system.Happens valuation call.1 ∧
      (∀ other ∈ system.calls.byCallee m, system.Happens valuation other.1 → other = call) ∧
      valuation.fields method.dataIn = valuation.fields call.2.arguments
  /-- With several call sites, all fields are zero if the method does not run. -/
  idle : 2 ≤ (system.calls.byCallee m).length → ¬ system.Runs valuation m →
    ∀ word ∈ valuation.fields method.dataIn, word = 0

namespace Cycle

variable {d : Declarations} {system : System} {valuation : Valuation} {reach : Reach} {s : Settled}
  (h : Cycle d .eager system valuation reach s)
include h

theorem fields_eq (bundle : Bundle) : valuation.fields bundle = bundle.nodes.map s.word := by
  rw [← h.valuation_eq]
  rfl

variable {m : ActionId} {method : Action} (hm : (m, method) ∈ d.plan.roster.methods)
include hm

/-- A method runs if one of its call sites happens. -/
theorem runs_method_iff_byCallee : system.Runs valuation m ↔
    ∃ call ∈ d.plan.calls.byCallee m, system.Happens valuation call.1 := by
  rw [h.runs_method_iff hm]
  constructor
  · rintro ⟨id, site, hsite, hcallee, hhappens⟩
    exact ⟨(id, site), Calls.mem_byCallee.mpr ⟨hsite, hcallee⟩, hhappens⟩
  · rintro ⟨⟨id, site⟩, hcall, hhappens⟩
    obtain ⟨hsite, hcallee⟩ := Calls.mem_byCallee.mp hcall
    exact ⟨id, site, hsite, hcallee, hhappens⟩

variable (hcombiner : method.combiner? = none)
  (hseveral : 2 ≤ (d.plan.calls.byCallee m).length)
include hcombiner hseveral

/-- The call that alone happens gives the method its arguments. -/
theorem fields_of_happens {call : CallId × CallSite} (hcall : call ∈ d.plan.calls.byCallee m)
    (hhappens : system.Happens valuation call.1)
    (hunique : ∀ other ∈ d.plan.calls.byCallee m, system.Happens valuation other.1 → other = call) :
    valuation.fields method.dataIn = valuation.fields call.2.arguments := by
  have hfed := h.wired.input m method hm hcombiner
  rw [h.fields_eq, h.fields_eq, hfed.several hseveral, ← hfed.shape call hcall,
    ← Bundle.map_nodeAt]
  refine List.map_congr_left fun i _ => Settled.chosen_of_unique hcall (h.happens_iff_bit.mp hhappens)
    fun other hother hbit => ?_
  exact hunique other hother (h.happens_iff_bit.mpr hbit)

/-- A method that does not run is given nothing. -/
theorem fields_of_not_runs (hidle : ¬ system.Runs valuation m) :
    ∀ word ∈ valuation.fields method.dataIn, word = 0 := by
  intro word hword
  have hfed := h.wired.input m method hm hcombiner
  rw [h.fields_eq, hfed.several hseveral] at hword
  obtain ⟨i, -, rfl⟩ := List.mem_map.mp hword
  refine Settled.chosen_of_none fun call hcall => ?_
  rw [← Bool.not_eq_true, ← h.happens_iff_bit]
  exact fun hhappens => hidle ((h.runs_method_iff_byCallee hm).mpr ⟨call, hcall, hhappens⟩)

end Cycle

/-- **Arguments are routed, never mixed.**  A method without a combiner that has arguments is given
those of its only call site, or those of the call site that happens, or else zero. -/
theorem arguments_routed {d : Declarations} (hd : d.Declared) {system : System}
    (hfinish : d.finish .eager = .ok system) {stimulus : Stimulus} {valuation : Valuation}
    (heval : system.evaluate stimulus = .ok valuation) {m : ActionId} {method : Action}
    (hm : (m, method) ∈ system.roster.methods) (hcombiner : method.combiner? = none)
    (hfields : method.dataIn.fields ≠ []) : system.Routes valuation m method := by
  obtain ⟨reach, s, h⟩ := cycle_of_evaluate hd hfinish heval
  unfold System.roster at hm
  rw [h.plan_eq] at hm
  have hfed := h.wired.input m method hm hcombiner
  have hexclusive : method.isNonexclusive = false :=
    (h.sound.actions m method (Roster.mem_methods.mp hm).1).exclusive hcombiner hfields
  have hcalls : system.calls = d.plan.calls := by
    unfold System.calls
    rw [h.plan_eq]
  rw [← h.fields_eq] at hfed
  refine ⟨?_, ?_, ?_, ?_, ?_⟩ <;> rw [hcalls]
  · exact hfed.shape
  · exact hfed.none
  · intro call hcall
    rw [hfed.only call hcall, h.fields_eq]
  · intro hseveral hruns
    obtain ⟨call, hcall, hhappens⟩ := (h.runs_method_iff_byCallee hm).mp hruns
    have hunique : ∀ other ∈ d.plan.calls.byCallee m,
        system.Happens valuation other.1 → other = call :=
      fun other hother hhappens' => h.happens_unique hm hexclusive hother hcall hhappens' hhappens
    exact ⟨call, hcall, hhappens, hunique,
      h.fields_of_happens hm hcombiner hseveral hcall hhappens hunique⟩
  · exact h.fields_of_not_runs hm hcombiner

/-- A store that two writers call, each with an item of its own. -/
def twoWriters : Declare Unit := do
  let first ← Declare.logic (Build.input "first" 1)
  let second ← Declare.logic (Build.input "second" 1)
  let five ← Declare.logic (Build.constant 5 4)
  let nine ← Declare.logic (Build.constant 9 4)
  let writer ← Declare.transaction "writer" none first
  let rival ← Declare.transaction "rival" none second
  let store ← Declare.method
    { name := "store"
      input := ⟨[⟨"item", 4⟩], ⟨by decide, by decide⟩⟩ }
  let _ ← Declare.call writer store.action first ⟨[(⟨"item", 4⟩, five)]⟩
  let _ ← Declare.call rival store.action second ⟨[(⟨"item", 4⟩, nine)]⟩

theorem twoWriters_declares : twoWriters.Declares := by
  refine Declare.bind_declares (Declare.logic_declares (Build.input_grows _ _)) fun first => ?_
  refine Declare.bind_declares (Declare.logic_declares (Build.input_grows _ _)) fun second => ?_
  refine Declare.bind_declares (Declare.logic_declares (Build.constant_grows _ _)) fun five => ?_
  refine Declare.bind_declares (Declare.logic_declares (Build.constant_grows _ _)) fun nine => ?_
  refine Declare.bind_declares (Declare.transaction_declares _ _ _) fun writer => ?_
  refine Declare.bind_declares (Declare.transaction_declares _ _ _) fun rival => ?_
  refine Declare.bind_declares (Declare.method_declares nofun nofun) fun store => ?_
  refine Declare.bind_declares (Declare.call_declares _ _ _ _) fun _ => ?_
  refine Declare.bind_declares (Declare.call_declares _ _ _ _) fun _ => ?_
  exact Declare.pure_declares ()

/-- Both writers ask, and the store is given the item of the one that runs. -/
theorem twoWriters_routed : ∃ system valuation method,
    (twoWriters.run.run .empty).2.finish .eager = .ok system ∧
      system.evaluate ⟨[(0, 1), (1, 1)]⟩ = .ok valuation ∧
      system.runs valuation = [true, false, true] ∧ (2, method) ∈ system.roster.methods ∧
      valuation.fields method.dataIn = [5] ∧ system.Routes valuation 2 method := by
  have hpasses : (twoWriters.run.run .empty).2.passes ⟨[(0, 1), (1, 1)]⟩
      (fun system valuation => system.runs valuation == [true, false, true] &&
        system.roster.methods.any fun entry => entry.1 == 2 && entry.2.combiner?.isNone &&
          !entry.2.dataIn.fields.isEmpty && valuation.fields entry.2.dataIn == [5]) = true := by
    decide +kernel
  obtain ⟨system, valuation, hfinish, heval, hcheck⟩ := exists_of_passes hpasses
  obtain ⟨hruns, hany⟩ := Bool.and_eq_true_iff.mp hcheck
  obtain ⟨⟨m, method⟩, hm, hmethod⟩ := List.any_eq_true.mp hany
  simp only [Bool.and_eq_true, beq_iff_eq, Option.isNone_iff_eq_none, Bool.not_eq_true',
    List.isEmpty_eq_false_iff] at hmethod
  obtain ⟨⟨⟨rfl, hcombiner⟩, hfields⟩, hwords⟩ := hmethod
  exact ⟨system, valuation, method, hfinish, heval, eq_of_beq hruns, hm, hwords,
    arguments_routed twoWriters_declares.declared hfinish heval hm hcombiner hfields⟩

end Interlock
