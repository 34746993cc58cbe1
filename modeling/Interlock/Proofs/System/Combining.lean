/-
Methods that combine what their callers pass.

The input of a method with a combiner is what the combiner makes of the arguments of all call sites
and of the bits that say which calls happen.  A combiner of the library folds, so in every cycle
the method is given the words of the calls that happen, combined field by field.  Where the method
is nonexclusive it is no reason for a conflict, so nothing keeps its callers from running together
but what they have in common besides.
-/
import Interlock.Proofs.Blueprint.Designed
import Interlock.Proofs.Circuit.Folding
import Interlock.Proofs.Contention.Clashes
import Interlock.Proofs.Inventory
import Interlock.Proofs.System.Finishing
import Interlock.Proofs.System.Preference

namespace Interlock

namespace System

variable (system : System) (valuation : Valuation)

instance (id : CallId) : Decidable (system.Happens valuation id) :=
  inferInstanceAs (Decidable (_ = true))

/-- The words of a field of the method at its calls that happen, in the order of the sites. -/
def passed (m : ActionId) (i : Nat) : List Nat :=
  ((system.calls.byCallee m).filter fun call => system.Happens valuation call.1).map
    fun call => valuation.word (call.2.arguments.nodeAt i)

/-- What a cycle makes of a method that combines its arguments. -/
structure Combines (policy : Policy) (combining : Blueprint.Combining) (shape : Shape)
    (m : ActionId) (method : Action) : Prop where
  sites : ∀ call ∈ system.calls.byCallee m, call.2.arguments.fields = shape.fields
  /-- The method is given what the calls that happen pass, combined. -/
  totals : combining.Totals shape valuation (system.passed valuation m) method.dataIn
  /-- No candidates conflict over a nonexclusive method. -/
  unblamed : method.isNonexclusive = true →
    ∀ c c', .sharedMethod m ∉ system.contention.reasons c c'
  /-- The eager policy grants whatever could run and has at most the method in common with what
  else it grants. -/
  granted : policy = .eager → method.isNonexclusive = true → ∀ c, system.Runnable valuation c →
    (∀ c', system.Granted valuation c' →
      ∀ reason ∈ system.contention.reasons c c', reason = .sharedMethod m) →
    system.Granted valuation c

end System

namespace Evaluated

variable {d : Declarations} {policy : Policy} {system : System} {valuation : Valuation}
  {reach : Reach} {s : Settled} (h : Evaluated d policy system valuation reach s)
include h

/-- The words that the calls pass are those that are folded. -/
theorem gathered_eq_passed (m : ActionId) : s.valuation.gathered
    (((d.plan.calls.byCallee m).map fun call => call.2.arguments).zip
      ((d.plan.calls.byCallee m).map fun call => system.wiring.callRuns.getD call.1 0)) =
        system.passed valuation m := by
  funext i
  unfold Valuation.gathered System.passed System.calls
  rw [List.zip_map', List.filter_map, List.map_map, h.plan_eq, h.valuation_eq]
  congr 1
  refine List.filter_congr fun call _ => ?_
  simp [System.Happens]

theorem totals {m : ActionId} {method : Action} (hm : (m, method) ∈ d.plan.roster.methods)
    {combining : Blueprint.Combining} {shape : Shape}
    (hcombiner : method.combiner? = some (Assembly.combiner shape combining))
    (hcalled : d.plan.calls.byCallee m ≠ []) :
    combining.Totals shape valuation (system.passed valuation m) method.dataIn := by
  obtain ⟨c, value, c', hfrom, hle, hyields, hfields, hwords⟩ :=
    h.wired.combined m method hm _ hcombiner hcalled
  have htotals := (Assembly.combiner_ensures combining shape _ _).holds hyields s hfrom hle
  rw [h.gathered_eq_passed, h.valuation_eq] at htotals
  refine ⟨hfields ▸ htotals.fields_eq, fun i field hi => ?_⟩
  have hword : valuation.word (method.dataIn.nodeAt i) = valuation.word (value.nodeAt i) := by
    have hat : s.word (method.dataIn.nodeAt i) = s.word (value.nodeAt i) := by
      rw [Bundle.nodeAt, Bundle.nodeAt, ← List.getD_map _ _ s.word, hwords, List.getD_map]
    rwa [← h.valuation_eq]
  rw [hword]
  exact htotals.word_eq i field hi

/-- A nonexclusive method is no reason for a conflict. -/
theorem not_mem_reasons {m : ActionId} {method : Action} (hm : (m, method) ∈ d.plan.roster.methods)
    (hnonexclusive : method.isNonexclusive = true) (c c' : Nat) :
    .sharedMethod m ∉ system.contention.reasons c c' := by
  have hplan : system.contention.slate.plan = d.plan := by
    rw [Slate.plan, h.workedOut.reach_eq, h.followed.plan_eq]
  have hjustified := h.workedOut.justified (hplan ▸ h.followed)
  intro hreason
  by_cases hne : c = c'
  · subst hne
    have hconflict := Contention.inConflict_iff_reasons.mpr (List.ne_nil_of_mem hreason)
    rw [hjustified.irrefl] at hconflict
    cases hconflict
  · obtain ⟨⟨other, hother, hexclusive⟩, -⟩ := (hjustified.mem_reasons c c' hne _).mp hreason
    rw [hplan] at hother
    obtain rfl : method = other := Option.some.inj
      ((Roster.mem_methods.mp hm).1.symm.trans (Roster.mem_methods.mp hother).1)
    rw [hnonexclusive] at hexclusive
    cases hexclusive

end Evaluated

namespace Cycle

variable {d : Declarations} {system : System} {valuation : Valuation} {reach : Reach} {s : Settled}
  (h : Cycle d .eager system valuation reach s)
include h

/-- Whatever could run and has no reason not to run with what is granted is granted. -/
theorem granted_of_reasons {c : Nat} (hrunnable : system.Runnable valuation c)
    (hfree : ∀ c', system.Granted valuation c' → system.contention.reasons c c' = []) :
    system.Granted valuation c := by
  by_contra hnot
  have hlt : c < system.contention.size := by
    obtain ⟨node, hnode, -⟩ := hrunnable
    rw [← h.wired.length_eq]
    exact (List.getElem?_eq_some_iff.mp hnode).1
  obtain ⟨rival, hrival, -, hconflict⟩ := h.exists_rival hlt hrunnable hnot
  rw [Contention.inConflict_comm] at hconflict
  exact Contention.inConflict_iff_reasons.mp hconflict (hfree rival hrival)

end Cycle

/-- **Combiners fold what the running callers pass.**  In every circuit, bundles of a shape can be
combined if there are bits that say which of them run, and whatever is applied to what becomes of
the circuit, every field of the answer carries the words of that field at the running ones, joined
by or, or added without carry out of the field.  In a finished design a method that combines its
arguments so is given this of its calls that happen, and if it is nonexclusive all of its callers
may run in one cycle. -/
theorem combiners_fold_running (combining : Blueprint.Combining) (shape : Shape) :
    (∀ (c : Circuit) (arguments : List Bundle) (runs : List NodeId),
      (∀ b ∈ arguments, b.fields = shape.fields ∧ b.Carried c) →
      (∀ run ∈ runs, c.width run = .ok 1) →
        ∃ b c', (Assembly.combiner shape combining arguments runs).Yields c b c' ∧
          ∀ evaluator : Evaluator, c' ≤ evaluator.circuit → ∀ stimulus valuation,
            evaluator.evaluate stimulus = .ok valuation →
              combining.Totals shape valuation (valuation.gathered (arguments.zip runs)) b) ∧
    ∀ d : Declarations, d.Declared → ∀ policy : Policy,
      (∀ contention runnable, (policy.grants contention runnable).Grows) →
      ∀ system, d.finish policy = .ok system → ∀ stimulus valuation,
        system.evaluate stimulus = .ok valuation → ∀ m method, (m, method) ∈ system.roster.methods →
          method.combiner? = some (Assembly.combiner shape combining) →
            system.calls.byCallee m ≠ [] →
              system.Combines valuation policy combining shape m method := by
  refine ⟨fun c arguments runs harguments hruns => ?_, ?_⟩
  · obtain ⟨b, c', hyields⟩ := Assembly.combiner_answers combining shape harguments hruns
    refine ⟨b, c', hyields, fun evaluator hle stimulus valuation heval => ?_⟩
    exact (Assembly.combiner_ensures combining shape arguments runs).holds hyields
      (Evaluator.settled c heval) c.le_refl hle
  · intro d hd policy hgrows system hfinish stimulus valuation heval m method hm hcombiner hcalled
    obtain ⟨reach, s, h⟩ := exists_evaluated hd hgrows hfinish heval
    have hplan := h.plan_eq
    unfold System.roster at hm
    unfold System.calls at hcalled
    rw [hplan] at hm hcalled
    have htotals := h.totals hm hcombiner hcalled
    refine ⟨fun call hcall => ?_, htotals, fun hnonexclusive => h.not_mem_reasons hm hnonexclusive,
      fun hpolicy hnonexclusive c hrunnable honly => ?_⟩
    · unfold System.calls at hcall
      rw [hplan] at hcall
      obtain ⟨hsite, hcallee⟩ := Calls.mem_byCallee.mp hcall
      obtain ⟨target, htarget, -, hfields⟩ := (hd.orderly.sites _ _ hsite).callee
      rw [hcallee, (Roster.mem_methods.mp hm).1] at htarget
      cases htarget
      rw [hfields, htotals.fields_eq]
    · subst hpolicy
      refine (h.cycle Policy.eager_serves).granted_of_reasons hrunnable fun c' hgranted => ?_
      rw [List.eq_nil_iff_forall_not_mem]
      intro reason hreason
      obtain rfl := honly c' hgranted reason hreason
      exact h.not_mem_reasons hm hnonexclusive c c' hreason

/-- A count of what three tills take in, of which the last one has to be open. -/
def tally : Declare Unit := do
  let go ← Declare.logic Build.high
  let amount ← Declare.logic (Build.input "amount" 8)
  let last ← Declare.logic (Build.input "open" 1)
  let left ← Declare.transaction "left" none go
  let right ← Declare.transaction "right" none go
  let back ← Declare.transaction "back" none last
  let count ← Declare.method
    { name := "count"
      input := amounts
      nonexclusive := true
      combiner := some (Assembly.combiner amounts .sum) }
  let _ ← Declare.call left count.action go ⟨[(⟨"amount", 8⟩, amount)]⟩
  let _ ← Declare.call right count.action go ⟨[(⟨"amount", 8⟩, amount)]⟩
  let _ ← Declare.call back count.action go ⟨[(⟨"amount", 8⟩, amount)]⟩

theorem tally_declares : tally.Declares := by
  refine Declare.bind_declares (Declare.logic_declares Build.high_grows) fun go => ?_
  refine Declare.bind_declares (Declare.logic_declares (Build.input_grows _ _)) fun amount => ?_
  refine Declare.bind_declares (Declare.logic_declares (Build.input_grows _ _)) fun last => ?_
  refine Declare.bind_declares (Declare.transaction_declares _ _ _) fun left => ?_
  refine Declare.bind_declares (Declare.transaction_declares _ _ _) fun right => ?_
  refine Declare.bind_declares (Declare.transaction_declares _ _ _) fun back => ?_
  refine Declare.bind_declares (Declare.method_declares nofun fun combiner hcombiner => ?_)
    fun count => ?_
  · cases hcombiner
    exact Assembly.combiner_grows _ _
  refine Declare.bind_declares (Declare.call_declares _ _ _ _) fun _ => ?_
  refine Declare.bind_declares (Declare.call_declares _ _ _ _) fun _ => ?_
  refine Declare.bind_declares (Declare.call_declares _ _ _ _) fun _ => ?_
  exact Declare.pure_declares _

theorem tally_furnished : (tally.run.run .empty).2.Furnished (fun _ => False)
    (· = Assembly.combiner amounts .sum) := by
  refine Declare.Furnishes.furnished ?_
  refine Declare.bind_furnishes (Declare.logic_furnishes Build.high_grows) fun go => ?_
  refine Declare.bind_furnishes (Declare.logic_furnishes (Build.input_grows _ _)) fun amount => ?_
  refine Declare.bind_furnishes (Declare.logic_furnishes (Build.input_grows _ _)) fun last => ?_
  refine Declare.bind_furnishes (Declare.transaction_furnishes _ _ _) fun left => ?_
  refine Declare.bind_furnishes (Declare.transaction_furnishes _ _ _) fun right => ?_
  refine Declare.bind_furnishes (Declare.transaction_furnishes _ _ _) fun back => ?_
  refine Declare.bind_furnishes (Declare.method_furnishes nofun
    fun _ h => (Option.some.inj h).symm) fun count => ?_
  refine Declare.bind_furnishes (Declare.call_furnishes _ _ _ _) fun _ => ?_
  refine Declare.bind_furnishes (Declare.call_furnishes _ _ _ _) fun _ => ?_
  refine Declare.bind_furnishes (Declare.call_furnishes _ _ _ _) fun _ => ?_
  exact Declare.pure_furnishes _

/-- Whether the circuit can be evaluated, and a cycle of it passes a check. -/
def Circuit.passes (circuit : Circuit) (stimulus : Stimulus) (check : Valuation → Bool) : Bool :=
  match Evaluator.ofCircuit circuit with
  | .error _ => false
  | .ok evaluator =>
    match evaluator.evaluate stimulus with
    | .error _ => false
    | .ok valuation => check valuation

theorem Circuit.exists_of_passes {circuit : Circuit} {stimulus : Stimulus}
    {check : Valuation → Bool} (h : circuit.passes stimulus check = true) :
    ∃ evaluator valuation, Evaluator.ofCircuit circuit = .ok evaluator ∧
      evaluator.evaluate stimulus = .ok valuation ∧ check valuation = true := by
  unfold passes at h
  split at h
  · cases h
  · rename_i evaluator hevaluator
    split at h
    · cases h
    · rename_i valuation heval
      exact ⟨evaluator, valuation, hevaluator, heval, h⟩

/-- An amount, and a bit for each of two tills. -/
def counter : Circuit := ⟨#[⟨8, .input "amount"⟩, ⟨1, .input "left"⟩, ⟨1, .input "right"⟩]⟩

/-- The amount. -/
def reading : Bundle := ⟨[(⟨"amount", 8⟩, 0)]⟩

/-- At the counter one till is open.  Of the three tills two are, and both take in two hundred,
which eight bits cannot hold. -/
theorem tally_combined :
    (∃ b c' evaluator valuation,
      (Assembly.combiner amounts .sum [reading, reading] [1, 2]).Yields counter b c' ∧
        Evaluator.ofCircuit c' = .ok evaluator ∧
        evaluator.evaluate ⟨[(0, 200), (2, 1)]⟩ = .ok valuation ∧
        valuation.word (b.nodeAt 0) = 200) ∧
    ∃ system valuation method, (tally.run.run .empty).2.finish .eager = .ok system ∧
      system.evaluate (Stimulus.empty.set 1 200) = .ok valuation ∧
      system.roster.methods = [(3, method)] ∧ system.passed valuation 3 0 = [200, 200] ∧
      valuation.word (method.dataIn.nodeAt 0) = 144 ∧
      ∀ c c', .sharedMethod 3 ∉ system.contention.reasons c c' := by
  obtain ⟨hanswers, hfinished⟩ := combiners_fold_running .sum amounts
  refine ⟨?_, ?_⟩
  · have hcarried : ∀ b ∈ [reading, reading], b.fields = amounts.fields ∧ b.Carried counter := by
      intro b hb
      obtain rfl : b = reading := by simpa using hb
      refine ⟨rfl, fun field node hentry => ?_⟩
      cases List.mem_singleton.mp hentry
      rfl
    obtain ⟨b, c', hyields, htotals⟩ := hanswers counter [reading, reading] [1, 2] hcarried
      (by decide)
    have hpasses : c'.passes ⟨[(0, 200), (2, 1)]⟩ (fun valuation =>
        valuation.gathered ([reading, reading].zip [1, 2]) 0 == [200]) = true := by
      have hcircuit : ((Assembly.combiner amounts .sum [reading, reading] [1, 2]).run.run
          counter).2 = c' := congrArg Prod.snd hyields
      rw [← hcircuit]
      decide +kernel
    obtain ⟨evaluator, valuation, hevaluator, heval, hgathered⟩ := Circuit.exists_of_passes hpasses
    have hword := (htotals evaluator (Evaluator.circuit_of_ofCircuit hevaluator ▸ c'.le_refl) _ _
      heval).word_eq 0 ⟨"amount", 8⟩ rfl
    rw [eq_of_beq hgathered] at hword
    exact ⟨b, c', evaluator, valuation, hyields, hevaluator, heval, hword⟩
  · have hpasses : (tally.run.run .empty).2.passes (Stimulus.empty.set 1 200)
        (fun system valuation => system.passed valuation 3 0 == [200, 200] &&
          !(system.calls.byCallee 3).isEmpty) = true := by
      decide +kernel
    obtain ⟨system, valuation, hfinish, heval, hcheck⟩ := exists_of_passes hpasses
    obtain ⟨hpassed, hcalled⟩ := Bool.and_eq_true_iff.mp hcheck
    have hmethods : (tally.run.run .empty).2.plan.roster.methods.map (fun entry =>
        (entry.1, entry.2.isNonexclusive, entry.2.combiner?.isSome)) = [(3, true, true)] := by
      decide +kernel
    have hfurnished := tally_furnished
    have hplan := (finish_finished hfinish).plan_eq
    rw [← hplan] at hmethods
    obtain ⟨⟨m, method⟩, hroster, hmethod⟩ := List.map_eq_singleton_iff.mp hmethods
    obtain ⟨rfl, hnonexclusive, hown⟩ := by simpa using hmethod
    have hmem : (3, method) ∈ system.roster.methods := by
      rw [System.roster, hroster]
      exact List.mem_singleton_self _
    obtain ⟨combiner, hcombiner⟩ := Option.isSome_iff_exists.mp hown
    have hmethod := (Roster.mem_methods.mp hmem).1
    rw [System.roster, hplan] at hmethod
    obtain rfl := (hfurnished 3 method hmethod).2 combiner hcombiner
    have hcombines := hfinished _ tally_declares.declared _ Policy.eager_serves.grows _ hfinish _ _
      heval 3 method hmem hcombiner (by simpa using hcalled)
    refine ⟨system, valuation, method, hfinish, heval, hroster, eq_of_beq hpassed, ?_,
      hcombines.unblamed hnonexclusive⟩
    rw [hcombines.totals.word_eq 0 ⟨"amount", 8⟩ rfl, eq_of_beq hpassed]
    rfl

end Interlock
