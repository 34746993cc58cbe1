/-
Reading blueprints.

A record is a table with the names of its fields as keys, or a list of the fields in their order.
Keys that no field has do not count, and most fields may be left out.  The forms that a document
may have differ in two small points, which are the reason to say which form it was.
-/
import Interlock.Ascending
import Interlock.Blueprint.Basic
import Interlock.Text.Json.Reading
import Interlock.Toml.Document

namespace Interlock.Blueprint

/-- The form a document was written in. -/
inductive Form where
  | json
  | toml
  deriving DecidableEq, Repr

/-! ### Simple values -/

/-- A text. -/
def text? : Datum → Option String
  | .text value => some value
  | _ => none

/-- A truth value. -/
def flag? : Datum → Option Bool
  | .bool value => some value
  | _ => none

/-- A whole number from zero up to a bound. -/
def natural? (bound : Nat) : Datum → Option Nat
  | .whole value => if 0 ≤ value ∧ value ≤ bound then some value.toNat else none
  | _ => none

/-- A width.  Whether a signal may have it is seen later. -/
def width? : Datum → Option Nat := natural? 255

/-- A word of the largest width. -/
def word? : Datum → Option Nat := natural? (Word.top Word.maxWidth)

/-- A signal: a number, or the name of an input. -/
def signal? (datum : Datum) : Option Signal :=
  (Signal.constant <$> word? datum) <|> (Signal.input <$> text? datum)

/-- A list. -/
def list? {α : Type} (read : Datum → Option α) : Datum → Option (List α)
  | .list items => items.mapM read
  | _ => none

/-- A value that may be null. -/
def nullable? {α : Type} (read : Datum → Option α) : Datum → Option (Option α)
  | .null => some none
  | datum => some <$> read datum

/-- Whether a value says no more than that it is there. -/
def isVoid : Form → Datum → Bool
  | .json, .null => true
  | .toml, .table [] => true
  | .toml, .list [] => true
  | _, _ => false

/-- A choice: one of some words, which may be the key of a table with a void value. -/
def choice? {α : Type} (form : Form) (words : List (String × α)) : Datum → Option α
  | .text word => words.lookup word
  | .table [(word, datum)] => if isVoid form datum then words.lookup word else none
  | _ => none

/-! ### Records -/

/-- The fields that were given for a record, by their names. -/
abbrev Given := String → Option Datum

/-- The fields of a record.  A list may be too long in one of the forms. -/
def given? (form : Form) (names : List String) : Datum → Option Given
  | .list items =>
    if form == .json && names.length < items.length then none
    else some fun name => (names.zip items).lookup name
  | datum => datum.entries?.map fun entries name => entries.lookup name

/-- A field that must be given. -/
def required {α : Type} (given : Given) (name : String) (read : Datum → Option α) : Option α :=
  (given name).bind read

/-- A field that stands for something else if it is left out. -/
def defaulted {α : Type} (given : Given) (name : String) (default : α)
    (read : Datum → Option α) : Option α :=
  match given name with
  | none => some default
  | some datum => read datum

/-- A field that may be left out, or null. -/
def optional {α : Type} (given : Given) (name : String) (read : Datum → Option α) :
    Option (Option α) :=
  defaulted given name none (nullable? read)

/-! ### The parts of a blueprint -/

variable (form : Form) (datum : Datum)

/-- An input has one bit if its width is left out. -/
def Input.read? : Option Input := do
  let given ← given? form ["name", "width"] datum
  return { name := ← required given "name" text?
           width := ← defaulted given "width" 1 width? }

/-- A block. -/
def Block.read? : Option Block := do
  let given ← given? form ["name", "parent"] datum
  return { name := ← required given "name" text?
           parent := ← optional given "parent" text? }

/-- A transaction always asks to run if its request is left out. -/
def Transaction.read? : Option Transaction := do
  let given ← given? form ["name", "component", "request"] datum
  return { name := ← required given "name" text?
           block := ← optional given "component" text?
           request := ← defaulted given "request" Signal.high signal? }

/-- A field of a method's input. -/
def readField? : Option Field := do
  let given ← given? form ["name", "width"] datum
  return { name := ← required given "name" text?
           width := ← required given "width" width? }

/-- A bound. -/
def Limit.read? : Option Limit := do
  let given ← given? form ["field", "below"] datum
  return { field := ← required given "field" text?
           below := ← required given "below" word? }

/-- A method is always ready if nothing else is said. -/
def Method.read? : Option Method := do
  let given ← given? form
    ["name", "component", "ready", "input", "nonexclusive", "single_caller", "combiner",
      "validate"] datum
  return { name := ← required given "name" text?
           block := ← optional given "component" text?
           ready := ← defaulted given "ready" Signal.high signal?
           input := ← defaulted given "input" [] (list? (readField? form))
           nonexclusive := ← defaulted given "nonexclusive" false flag?
           singleCaller := ← defaulted given "single_caller" false flag?
           combining := ← optional given "combiner" (choice? form combinings)
           limit := ← optional given "validate" (Limit.read? form) }

/-- The arguments of a call, ascending by the names of the fields. -/
def arguments? (datum : Datum) : Option (List (String × Signal)) := do
  let arguments ← (← datum.entries?).mapM fun (name, datum) => return (name, ← signal? datum)
  return sorted (keyLt Prod.fst textLt) arguments

/-- A call always happens if its enabling signal is left out. -/
def Call.read? : Option Call := do
  let given ← given? form ["caller", "callee", "enable", "args"] datum
  return { caller := ← required given "caller" text?
           callee := ← required given "callee" text?
           enable := ← defaulted given "enable" Signal.high signal?
           arguments := ← defaulted given "args" [] arguments? }

/-- A conflict. -/
def Conflict.read? : Option Conflict := do
  let given ← given? form ["a", "b", "priority"] datum
  return { first := ← required given "a" text?
           second := ← required given "b" text?
           priority := ← defaulted given "priority" .undefined (choice? form priorities) }

/-- An ordering. -/
def Ordering.read? : Option Ordering := do
  let given ← given? form ["before", "after"] datum
  return { before := ← required given "before" text?
           after := ← required given "after" text? }

/-- Actions that run together. -/
def Together.read? : Option Together := do
  let given ← given? form ["unit", "with", "alternatives"] datum
  return { action := ← required given "unit" text?
           others := ← required given "with" (list? text?)
           alternatives := ← defaulted given "alternatives" false flag? }

/-- A pair that is meant to be coupled. -/
def Coupled.read? : Option Coupled := do
  let given ← given? form ["a", "b"] datum
  return { first := ← required given "a" text?
           second := ← required given "b" text? }

/-- A blueprint. -/
def read? : Option Blueprint := do
  let given ← given? form
    ["inputs", "components", "transactions", "methods", "calls", "conflicts", "orderings",
      "simultaneous", "acknowledged"] datum
  return { inputs := ← defaulted given "inputs" [] (list? (Input.read? form))
           blocks := ← defaulted given "components" [] (list? (Block.read? form))
           transactions := ← defaulted given "transactions" [] (list? (Transaction.read? form))
           methods := ← defaulted given "methods" [] (list? (Method.read? form))
           calls := ← defaulted given "calls" [] (list? (Call.read? form))
           conflicts := ← defaulted given "conflicts" [] (list? (Conflict.read? form))
           orderings := ← defaulted given "orderings" [] (list? (Ordering.read? form))
           together := ← defaulted given "simultaneous" [] (list? (Together.read? form))
           coupled := ← defaulted given "acknowledged" [] (list? (Coupled.read? form)) }

/-- Reads a blueprint from a JSON value. -/
def ofJson? (value : Json) : Option Blueprint := read? .json value.datum

/-- Reads a blueprint from the text of a TOML document. -/
def ofText? (text : String) : Option Blueprint := do read? .toml (← Toml.read? text)

end Interlock.Blueprint
