/-
Commands on a design that is written in a file.

A command reads the design, works something out and says it.  What it prints, where, and with what
status it ends is a value like any other; whoever runs the command only carries it out.
-/
import Interlock.Blueprint.Assembly
import Interlock.Blueprint.Reading
import Interlock.Command.Fault
import Interlock.Command.Reply
import Interlock.System.Audit
import Interlock.System.Picture
import Interlock.System.Summary

namespace Interlock

namespace Command

/-- The system that the text of a file describes. -/
def load (text : String) : Except Command.Fault System := do
  match Blueprint.ofText? text with
  | none => throw .illFormed
  | some blueprint =>
    match blueprint.assemble with
    | .ok system => return system
    | .error fault => throw (.blueprint fault)

/-- Passes on what was worked out from a system. -/
def ofEvaluation {α : Type} : Except Interlock.Fault α → Except Command.Fault α
  | .ok answer => .ok answer
  | .error fault => .error (.evaluation fault)

/-- A text of lines. -/
def linesText (lines : List String) : String := "\n".intercalate lines

/-! ### Report and graph -/

/-- Names, with commas between. -/
def commaText (names : List String) : String := ", ".intercalate names

/-- How a design is scheduled, in words. -/
def summaryLines (summary : Summary) : List String :=
  let counts := summary.counts
  [ "Scheduler: " ++ summary.policy,
    "Units: " ++ toString counts.actions ++ " (" ++ toString counts.transactions ++
      " transactions, " ++ toString counts.methods ++ " methods)",
    "Calls: " ++ toString counts.calls,
    "Candidates: " ++ toString counts.candidates,
    "Conflicts: " ++ toString counts.conflicts,
    "Priorities: " ++ toString counts.priorities,
    "Netlist nodes: " ++ toString counts.nodes,
    "Order: " ++ commaText summary.order ] ++
    summary.warnings.map ("warning: " ++ ·.message)

/-- How a design is scheduled. -/
def reportReply (system : System) : Reply where
  value := system.summary.toJson
  message := some (linesText (summaryLines system.summary))

/-- The picture of a design. -/
def graphReply (system : System) : Reply where
  value := .record [("dot", .text system.picture), ("candidates", .count system.contention.size)]
  message := some (String.ofList (Blank.trimEnd system.picture.toList))

/-! ### Check -/

/-- What an audit found, in words. -/
def auditLines (report : AuditReport) : List String :=
  ("Checked " ++ toString report.assignments ++ " assignments over " ++
      toString report.inputs.length ++ " inputs") ::
    (if report.isClean then ["All scheduling guarantees hold"] else []) ++
    report.breaches.map ("violation: " ++ ·.message)

/-- What an audit found. -/
def auditReply (report : AuditReport) : Reply where
  value := .record [("inputs", .texts report.inputs), ("assignments", .count report.assignments),
    ("violations", .list (report.breaches.map (·.toJson))), ("clean", .bool report.isClean)]
  message := some (linesText (auditLines report))

/-! ### Simulate -/

/-- Applies a setting.  The word must fit. -/
def applySetting (circuit : Circuit) (stimulus : Stimulus) (text : String) :
    Except Setting.Fault Stimulus := do
  let setting ← Setting.parse text
  match circuit.findInput? setting.name with
  | none => throw (.unknownInput setting.name)
  | some input =>
    let width := circuit.widthD input
    if Word.top width < setting.word then throw (.tooWide setting.word width setting.name)
    return stimulus.set input setting.word

/-- Applies settings, each in place of earlier ones of the same input. -/
def stimulusOf (circuit : Circuit) (settings : List String) : Except Command.Fault Stimulus :=
  match settings.foldlM (applySetting circuit) Stimulus.empty with
  | .ok stimulus => .ok stimulus
  | .error fault => .error (.setting fault)

/-- The arguments that a method sees, by the names of the fields. -/
def argumentsOf (valuation : Valuation) (method : Action) : List (String × Nat) :=
  (method.dataIn.fields.map Field.name).zip (valuation.fields method.dataIn)

/-- The methods that run and take arguments. -/
def busyMethods (system : System) (valuation : Valuation) : List Action :=
  (system.roster.methods.map Prod.snd).filter fun method =>
    valuation.bit method.run && !method.dataIn.isEmpty

/-- The arguments that a method sees, in words. -/
def argumentLines (valuation : Valuation) (method : Action) : List String :=
  (argumentsOf valuation method).map fun (field, word) =>
    method.qualifiedName ++ "." ++ field ++ " = " ++ toString word

/-- What happens in a cycle. -/
def cycleReply (system : System) (valuation : Valuation) : Reply :=
  let running := (system.running valuation).map system.name
  let methods := busyMethods system valuation
  let arguments := methods.map fun method =>
    (method.qualifiedName,
      Json.record ((argumentsOf valuation method).map fun (field, word) => (field, .count word)))
  let names := if running.isEmpty then "-" else commaText running
  { value := .record [("running", .texts running), ("data_in", .record arguments)]
    message := some (linesText
      (("Running: " ++ names) :: methods.flatMap (argumentLines valuation))) }

/-! ### All commands -/

/-- What a command did: it may say something and fail all the same. -/
structure Outcome where
  reply : Option Reply
  fault : Option Command.Fault

/-- Runs a command on a system. -/
def runOn (system : System) : Command → Except Command.Fault Outcome
  | report => return ⟨some (reportReply system), none⟩
  | graph => return ⟨some (graphReply system), none⟩
  | check => do
    let found ← ofEvaluation (do (← Audit.ofSystem system).run)
    let fault := if found.isClean then none else some (.breaches found.breaches.length)
    return ⟨some (auditReply found), fault⟩
  | simulate settings => do
    let stimulus ← stimulusOf system.circuit settings
    let valuation ← ofEvaluation (system.evaluate stimulus)
    return ⟨some (cycleReply system valuation), none⟩

/-- Runs a command on a file, given the text of the file. -/
def run (command : Command) (text : Except Command.Fault String) : Outcome :=
  match (do command.runOn (← load (← text))) with
  | .ok outcome => outcome
  | .error fault => ⟨none, some fault⟩

/-- What there is to print, and the status to end with. -/
structure Transcript where
  status : Nat
  output : String
  errors : String
  deriving DecidableEq, Repr

/-- A fault, as programs read it. -/
def Fault.toJson (fault : Command.Fault) : Json :=
  .record [("error", .text fault.message), ("success", .bool false)]

/-- What an outcome prints.  Programs find a fault where they find the reply. -/
def Outcome.transcript (outcome : Outcome) (asJson : Bool) : Transcript :=
  let said := ((outcome.reply.bind (·.text? asJson)).map (· ++ "\n")).getD ""
  match outcome.fault with
  | none => ⟨0, said, ""⟩
  | some fault =>
    if asJson then ⟨1, said ++ fault.toJson.compact ++ "\n", ""⟩
    else ⟨1, said, "Error: " ++ fault.message ++ "\n"⟩

end Command

end Interlock
