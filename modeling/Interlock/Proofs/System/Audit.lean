/-
An audit that tries all assignments tries everything.

Words can be applied to the inputs in endless ways: to some of them, to one of them twice, and larger
words than fit.  If all inputs have one bit, each evaluation is nevertheless that of an assignment,
since nothing else of the words is read; and a number below a power of two says which.  So what an
audit does not find is not there, and what it finds can be seen again under its number.
-/
import Interlock.Proofs.Circuit.Applied
import Interlock.Proofs.Circuit.Solution
import Interlock.Proofs.System.Breach
import Interlock.Proofs.System.Descent

namespace Interlock

variable {system : System}

/-! ### Evaluations that read alike -/

namespace System

theorem eq_valuationAlong {stimulus : Stimulus} {valuation : Valuation}
    (h : system.evaluate stimulus = .ok valuation) :
    valuation = system.circuit.valuationAlong system.evaluator.order stimulus := by
  have heval := ofCircuit_eq_ok_iff.mp h
  unfold Evaluator.evaluate at heval
  split at heval
  · cases heval
  · exact (Except.ok.inj heval).symm

/-- Two evaluations that read the same bits answer the same words. -/
theorem evaluate_congr {stimulus stimulus' : Stimulus} {valuation valuation' : Valuation}
    (halike : system.circuit.ReadsAlike stimulus stimulus')
    (h : system.evaluate stimulus = .ok valuation)
    (h' : system.evaluate stimulus' = .ok valuation') : valuation = valuation' := by
  rw [eq_valuationAlong h, eq_valuationAlong h', Circuit.valuationAlong_congr halike]

/-- The stimulus gives every input its bit of the assignment. -/
def Applies (system : System) (assignment : Nat) (stimulus : Stimulus) : Prop :=
  ∀ (i : Nat) (port : Circuit.Port), system.circuit.inputs[i]? = some port →
    stimulus.word port.node = (assignment >>> i) % 2

theorem Applies.readsAlike {assignment : Nat} {stimulus stimulus' : Stimulus}
    (h : system.Applies assignment stimulus) (h' : system.Applies assignment stimulus') :
    system.circuit.ReadsAlike stimulus stimulus' := by
  intro port hport
  obtain ⟨i, hi⟩ := List.mem_iff_getElem?.mp hport
  rw [h i port hi, h' i port hi]

/-- Whatever is applied to inputs of one bit is read as some assignment is. -/
theorem exists_applied (hbits : ∀ port ∈ system.circuit.inputs, port.width = 1)
    (stimulus : Stimulus) : ∃ assignment < 2 ^ system.circuit.inputs.length,
      ∀ stimulus', system.Applies assignment stimulus' →
        system.circuit.ReadsAlike stimulus stimulus' := by
  obtain ⟨assignment, hlt, hassignment⟩ := exists_assignment system.circuit.inputs.length fun i =>
    (system.circuit.inputs[i]?.map fun port => stimulus.word port.node).getD 0
  refine ⟨assignment, hlt, fun stimulus' happlies port hport => ?_⟩
  obtain ⟨i, hi⟩ := List.mem_iff_getElem?.mp hport
  have hbit := hassignment i (List.getElem?_eq_some_iff.mp hi).1
  have hword := happlies i port hi
  rw [hi, Option.map_some, Option.getD_some] at hbit
  -- of a word for one bit the remainder by two is read
  have htruncate : ∀ word, Word.truncate 1 word = word % 2 := fun _ => rfl
  rw [hbits port hport, htruncate, htruncate]
  omega

end System

/-! ### What an audit reports -/

namespace Audit

variable {audit : Audit}

theorem check_eq_ok_iff {assignment : Nat} {breaches : List Breach} :
    audit.check (Watch.ofSystem audit.system) assignment = .ok breaches ↔
      ∃ valuation, audit.system.evaluate (audit.stimulus assignment) = .ok valuation ∧
        ((Watch.ofSystem audit.system).breaches valuation).map (⟨assignment, ·⟩) = breaches := by
  unfold check
  rw [bind_eq_ok_iff]
  exact exists_congr fun valuation => and_congr_right fun _ => ⟨Except.ok.inj, congrArg _⟩

theorem run_eq_ok_iff {report : AuditReport} : audit.run = .ok report ↔
    ∃ found, (List.range audit.assignments).mapM (audit.check (Watch.ofSystem audit.system)) =
      .ok found ∧
        ⟨audit.inputs.map audit.system.circuit.label, audit.assignments,
          sorted Breach.lt found.flatten⟩ = report := by
  unfold run
  rw [bind_eq_ok_iff]
  exact exists_congr fun found => and_congr_right fun _ => ⟨Except.ok.inj, congrArg _⟩

/-- An audit is answered if every assignment can be evaluated. -/
theorem run_isOk_iff : (∃ report, audit.run = .ok report) ↔
    ∀ assignment < audit.assignments,
      ∃ valuation, audit.system.evaluate (audit.stimulus assignment) = .ok valuation := by
  simp only [run_eq_ok_iff]
  rw [exists_comm]
  simp only [exists_and_left, exists_eq', and_true, mapM_isOk_iff, List.mem_range]
  refine forall_congr' fun assignment => forall_congr' fun _ => ?_
  simp only [check_eq_ok_iff]
  rw [exists_comm]
  simp only [exists_and_left, exists_eq', and_true]

/-- An audit reports what is broken under the assignments, and nothing else. -/
theorem mem_breaches_iff {report : AuditReport} (h : audit.run = .ok report) {breach : Breach} :
    breach ∈ report.breaches ↔ breach.assignment < audit.assignments ∧ ∃ valuation,
      audit.system.evaluate (audit.stimulus breach.assignment) = .ok valuation ∧
        audit.system.Breaks valuation breach.kind := by
  obtain ⟨found, hfound, rfl⟩ := run_eq_ok_iff.mp h
  obtain ⟨assignment, kind⟩ := breach
  show _ ∈ sorted Breach.lt found.flatten ↔ _
  unfold sorted
  rw [List.mem_mergeSort, List.mem_flatten]
  simp only [mem_of_mapM_eq_ok hfound, List.mem_range, check_eq_ok_iff]
  constructor
  · rintro ⟨breaches, ⟨_, hlt, valuation, heval, rfl⟩, hmem⟩
    obtain ⟨_, hkind, heq⟩ := List.mem_map.mp hmem
    cases heq
    exact ⟨hlt, valuation, heval, Watch.mem_breaches_iff.mp hkind⟩
  · rintro ⟨hlt, valuation, heval, hbreaks⟩
    exact ⟨_, ⟨assignment, hlt, valuation, heval, rfl⟩,
      List.mem_map.mpr ⟨kind, Watch.mem_breaches_iff.mpr hbreaks, rfl⟩⟩

/-- Nothing is reported if nothing is broken under any assignment. -/
theorem isClean_iff {report : AuditReport} (h : audit.run = .ok report) :
    report.isClean = true ↔ ∀ assignment < audit.assignments, ∀ valuation,
      audit.system.evaluate (audit.stimulus assignment) = .ok valuation →
        ∀ kind, ¬ audit.system.Breaks valuation kind := by
  unfold AuditReport.isClean
  rw [List.isEmpty_iff, List.eq_nil_iff_forall_not_mem]
  simp only [mem_breaches_iff h]
  constructor
  · exact fun hnone assignment hlt valuation heval kind hbreaks =>
      hnone ⟨assignment, kind⟩ ⟨hlt, valuation, heval, hbreaks⟩
  · rintro hnone breach ⟨hlt, valuation, heval, hbreaks⟩
    exact hnone breach.assignment hlt valuation heval breach.kind hbreaks

end Audit

/-! ### Audits of all inputs -/

/-- The audit of all inputs of a system. -/
def Audit.ofAll (system : System) : Audit :=
  ⟨system, system.circuit.inputs.map (·.node), .empty⟩

namespace Audit

/-- If all inputs have one bit and there are not too many, an audit is of all of them. -/
theorem ofSystem_eq (hbits : ∀ port ∈ system.circuit.inputs, port.width = 1)
    (hfew : system.circuit.inputs.length ≤ maxFreeInputs) :
    ofSystem system = .ok (ofAll system) := by
  have hall : system.circuit.inputs.filter (·.width == 1) = system.circuit.inputs :=
    List.filter_eq_self.mpr fun port hport => beq_iff_eq.mpr (hbits port hport)
  unfold ofSystem ofInputs
  rw [hall, List.length_map, if_neg (Nat.not_lt.mpr hfew)]
  rfl

theorem assignments_ofAll : (ofAll system).assignments = 2 ^ system.circuit.inputs.length :=
  congrArg (2 ^ ·) (List.length_map _)

/-- An assignment gives every input its bit. -/
theorem stimulus_applies (assignment : Nat) :
    system.Applies assignment ((ofAll system).stimulus assignment) := by
  intro i port hport
  have hnodup : (system.circuit.inputs.map Circuit.Port.node).Nodup :=
    system.circuit.inputs_ascending.imp Nat.ne_of_lt
  have hnode : (system.circuit.inputs.map Circuit.Port.node)[i]? = some port.node := by
    rw [List.getElem?_map, hport, Option.map_some]
  have hword := Stimulus.word_foldl_set (fun position => (assignment >>> position) % 2) hnodup 0
    .empty hnode
  rw [Nat.zero_add] at hword
  exact hword

/-- Every assignment can be evaluated. -/
theorem evaluate_stimulus (assignment : Nat) :
    ∃ valuation, system.evaluate ((ofAll system).stimulus assignment) = .ok valuation := by
  refine system.evaluate_eq_ok fun entry hentry => ?_
  rcases Stimulus.mem_assigned_foldl_set (fun position => (assignment >>> position) % 2) 0 .empty
    hentry with hmem | hmem
  · obtain ⟨port, hport, hnode⟩ := List.mem_map.mp hmem
    unfold Circuit.isInput
    rw [← hnode, Circuit.mem_inputs.mp hport]
  · cases hmem

end Audit

/-- What a report says of a system all of whose inputs have one bit. -/
structure System.Audited (system : System) (report : AuditReport) : Prop where
  inputs : report.inputs = system.circuit.inputs.map (·.name)
  assignments : report.assignments = 2 ^ system.circuit.inputs.length
  /-- It is clean if no evaluation whatever breaks a promise. -/
  clean : report.isClean = true ↔ ∀ stimulus valuation,
    system.evaluate stimulus = .ok valuation → ∀ kind, ¬ system.Breaks valuation kind
  /-- A breach is reported under an assignment if a promise is broken where the inputs have these
  bits. -/
  reproduced : ∀ breach, breach ∈ report.breaches ↔
    breach.assignment < 2 ^ system.circuit.inputs.length ∧ ∃ stimulus valuation,
      system.Applies breach.assignment stimulus ∧ system.evaluate stimulus = .ok valuation ∧
        system.Breaks valuation breach.kind

/-- **The audit of a system whose inputs have one bit is exhaustive.**  If there are not too many
inputs it is answered; it is clean exactly if no words that can be applied break a promise; and each
breach that it reports is seen again when the inputs are given the bits of its number. -/
theorem audit_exhaustive (hbits : ∀ port ∈ system.circuit.inputs, port.width = 1)
    (hfew : system.circuit.inputs.length ≤ maxFreeInputs) :
    ∃ audit report, Audit.ofSystem system = .ok audit ∧ audit.run = .ok report ∧
      system.Audited report := by
  obtain ⟨report, hrun⟩ := (@Audit.run_isOk_iff (.ofAll system)).mpr fun assignment _ =>
    Audit.evaluate_stimulus assignment
  refine ⟨_, report, Audit.ofSystem_eq hbits hfew, hrun, ?_, ?_, ?_, fun breach => ?_⟩
  · obtain ⟨found, -, rfl⟩ := Audit.run_eq_ok_iff.mp hrun
    refine (List.map_map ..).trans (List.map_congr_left fun port hport => ?_)
    have hnode := Circuit.mem_inputs.mp hport
    simp only [Function.comp_apply, Circuit.label]
    rw [show (Audit.ofAll system).system.circuit = system.circuit from rfl, hnode]
    rfl
  · obtain ⟨found, -, rfl⟩ := Audit.run_eq_ok_iff.mp hrun
    exact Audit.assignments_ofAll
  · rw [Audit.isClean_iff hrun, Audit.assignments_ofAll]
    constructor
    · intro hclean stimulus valuation heval
      obtain ⟨assignment, hlt, halike⟩ := system.exists_applied hbits stimulus
      obtain ⟨valuation', heval'⟩ := @Audit.evaluate_stimulus system assignment
      rw [System.evaluate_congr (halike _ (Audit.stimulus_applies assignment)) heval heval']
      exact hclean assignment hlt valuation' heval'
    · exact fun hnever assignment _ valuation heval => hnever _ valuation heval
  · rw [Audit.mem_breaches_iff hrun, Audit.assignments_ofAll]
    refine and_congr_right fun _ => ?_
    constructor
    · rintro ⟨valuation, heval, hbreaks⟩
      exact ⟨_, valuation, Audit.stimulus_applies _, heval, hbreaks⟩
    · rintro ⟨stimulus, valuation, happlies, heval, hbreaks⟩
      obtain ⟨valuation', heval'⟩ := @Audit.evaluate_stimulus system breach.assignment
      have halike := happlies.readsAlike (Audit.stimulus_applies breach.assignment)
      rw [System.evaluate_congr halike heval heval'] at hbreaks
      exact ⟨valuation', heval', hbreaks⟩

/-- A port that two transactions call when their inputs ask for it. -/
def contestedPort : Declare Unit := do
  let first ← Declare.logic (Build.input "first" 1)
  let second ← Declare.logic (Build.input "second" 1)
  let reader ← Declare.transaction "reader" none first
  let writer ← Declare.transaction "writer" none second
  let port ← Declare.method { name := "port" }
  let _ ← Declare.call reader port.action first .empty
  let _ ← Declare.call writer port.action second .empty

/-- Where the port is granted to whoever asks, the audit finds both using it under assignment 3. -/
theorem contestedPort_audited : ∃ system audit report,
    (contestedPort.run.run .empty).2.finish generous = .ok system ∧
      Audit.ofSystem system = .ok audit ∧ audit.run = .ok report ∧ report.assignments = 4 ∧
      report.inputs = ["first", "second"] ∧
      ⟨3, .conflictingRuns "reader" "writer"⟩ ∈ report.breaches ∧ system.Audited report := by
  have hpasses : (contestedPort.run.run .empty).2.passesWith generous ⟨[(0, 1), (1, 1)]⟩
      (fun system valuation => system.circuit.inputs == [⟨0, "first", 1⟩, ⟨1, "second", 1⟩] &&
        ((Watch.ofSystem system).breaches valuation).contains
          (.conflictingRuns "reader" "writer")) = true := by
    decide +kernel
  obtain ⟨system, valuation, hfinish, heval, hcheck⟩ := exists_of_passesWith hpasses
  obtain ⟨hinputs, hfound⟩ := Bool.and_eq_true_iff.mp hcheck
  have hinputs := eq_of_beq hinputs
  have hbreaks := Watch.mem_breaches_iff.mp (List.contains_iff_mem.mp hfound)
  have hbits : ∀ port ∈ system.circuit.inputs, port.width = 1 := by
    rw [hinputs]
    decide
  have hfew : system.circuit.inputs.length ≤ maxFreeInputs := by
    rw [hinputs]
    decide
  obtain ⟨audit, report, haudit, hrun, haudited⟩ := audit_exhaustive hbits hfew
  refine ⟨system, audit, report, hfinish, haudit, hrun, ?_, ?_, ?_, haudited⟩
  · rw [haudited.assignments, hinputs]
    rfl
  · rw [haudited.inputs, hinputs]
    rfl
  · refine (haudited.reproduced _).mpr ⟨by rw [hinputs]; decide, _, valuation, ?_, heval, hbreaks⟩
    intro i port hport
    rw [hinputs] at hport
    match i, hport with
    | 0, hport | 1, hport =>
        cases hport
        rfl

end Interlock
