import Interlock.Ascending
import Interlock.Blueprint.Assembly
import Interlock.Blueprint.Basic
import Interlock.Blueprint.Fault
import Interlock.Blueprint.Reading
import Interlock.Circuit.Basic
import Interlock.Circuit.Build
import Interlock.Circuit.Bundle
import Interlock.Circuit.Evaluation
import Interlock.Circuit.Fault
import Interlock.Circuit.Order
import Interlock.Circuit.Record
import Interlock.Circuit.Shape
import Interlock.Circuit.Text
import Interlock.Combination
import Interlock.Command.Arguments
import Interlock.Command.Basic
import Interlock.Command.Fault
import Interlock.Command.Reply
import Interlock.Contention.Basic
import Interlock.Contention.CallPath
import Interlock.Contention.Candidate
import Interlock.Contention.Conflict
import Interlock.Contention.Group
import Interlock.Contention.Precedence
import Interlock.Contention.Slate
import Interlock.Contention.Warning
import Interlock.Declarations
import Interlock.Granting
import Interlock.Main
import Interlock.Plan.Action
import Interlock.Plan.Basic
import Interlock.Plan.CallSite
import Interlock.Plan.Coupling
import Interlock.Plan.Fault
import Interlock.Plan.Hierarchy
import Interlock.Proofs.Anchored
import Interlock.Proofs.Answer
import Interlock.Proofs.Ascending
import Interlock.Proofs.Blueprint.Assembled
import Interlock.Proofs.Blueprint.Described
import Interlock.Proofs.Blueprint.Designed
import Interlock.Proofs.Blueprint.Exact
import Interlock.Proofs.Circuit.Acyclic
import Interlock.Proofs.Circuit.Answered
import Interlock.Proofs.Circuit.Applied
import Interlock.Proofs.Circuit.Beside
import Interlock.Proofs.Circuit.Built
import Interlock.Proofs.Circuit.Bundle
import Interlock.Proofs.Circuit.Completing
import Interlock.Proofs.Circuit.CopiedWords
import Interlock.Proofs.Circuit.Copy
import Interlock.Proofs.Circuit.Culprit
import Interlock.Proofs.Circuit.Extended
import Interlock.Proofs.Circuit.Folding
import Interlock.Proofs.Circuit.Following
import Interlock.Proofs.Circuit.Gates
import Interlock.Proofs.Circuit.Growth
import Interlock.Proofs.Circuit.Loop
import Interlock.Proofs.Circuit.Order
import Interlock.Proofs.Circuit.Resting
import Interlock.Proofs.Circuit.Settled
import Interlock.Proofs.Circuit.Solution
import Interlock.Proofs.Circuit.Tables
import Interlock.Proofs.Circuit.Transfer
import Interlock.Proofs.Circuit.WellFormed
import Interlock.Proofs.Circuit.Wires
import Interlock.Proofs.Contention.Alike
import Interlock.Proofs.Contention.Arbitration
import Interlock.Proofs.Contention.Arrangement
import Interlock.Proofs.Contention.CallPath
import Interlock.Proofs.Contention.Candidate
import Interlock.Proofs.Contention.Circle
import Interlock.Proofs.Contention.Clashes
import Interlock.Proofs.Contention.Closed
import Interlock.Proofs.Contention.Conflict
import Interlock.Proofs.Contention.Group
import Interlock.Proofs.Contention.Grouping
import Interlock.Proofs.Contention.Linked
import Interlock.Proofs.Contention.Newcomer
import Interlock.Proofs.Contention.Precedence
import Interlock.Proofs.Contention.Refusals
import Interlock.Proofs.Contention.Sides
import Interlock.Proofs.Contention.Warning
import Interlock.Proofs.Coupling
import Interlock.Proofs.Declarations
import Interlock.Proofs.Designed
import Interlock.Proofs.Granting
import Interlock.Proofs.Hierarchy
import Interlock.Proofs.Inventory
import Interlock.Proofs.Ledger
import Interlock.Proofs.Lineage
import Interlock.Proofs.Numeral
import Interlock.Proofs.Path
import Interlock.Proofs.Picture
import Interlock.Proofs.Preferences
import Interlock.Proofs.Refused
import Interlock.Proofs.Results
import Interlock.Proofs.Roster
import Interlock.Proofs.Setting
import Interlock.Proofs.System.Acceptance
import Interlock.Proofs.System.Alternatives
import Interlock.Proofs.System.Audit
import Interlock.Proofs.System.Breach
import Interlock.Proofs.System.Combining
import Interlock.Proofs.System.Commutation
import Interlock.Proofs.System.Completion
import Interlock.Proofs.System.Descent
import Interlock.Proofs.System.Exclusion
import Interlock.Proofs.System.Finishing
import Interlock.Proofs.System.Following
import Interlock.Proofs.System.Grounding
import Interlock.Proofs.System.Interference
import Interlock.Proofs.System.Judgement
import Interlock.Proofs.System.Newcomer
import Interlock.Proofs.System.Preference
import Interlock.Proofs.System.Routing
import Interlock.Proofs.System.Runnable
import Interlock.Proofs.System.Running
import Interlock.Proofs.System.Simultaneity
import Interlock.Proofs.System.Vetting
import Interlock.Proofs.System.Wiring
import Interlock.Proofs.Uniform
import Interlock.Setting
import Interlock.System.Audit
import Interlock.System.Basic
import Interlock.System.Breach
import Interlock.System.Picture
import Interlock.System.Summary
import Interlock.System.Wiring
import Interlock.Text.Binary64
import Interlock.Text.Blank
import Interlock.Text.Datum
import Interlock.Text.Json
import Interlock.Text.Json.Reading
import Interlock.Text.Numeral
import Interlock.Text.Quoted
import Interlock.Text.Scanner
import Interlock.Toml.Document
import Interlock.Toml.Quotation
import Interlock.Toml.Scalar
import Interlock.Toml.Tree
import Interlock.Toml.Value
import Interlock.Word
