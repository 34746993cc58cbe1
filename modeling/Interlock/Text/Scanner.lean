/-
Scanners: reading a document from its front.

A scanner takes something off the front of a text, or refuses the text.  It decides what to read
by looking ahead and never goes back, so a refusal is final.  Repetition is bounded by the
length of the text: every round takes a character at least.
-/
import Interlock.Text.Numeral

namespace Interlock

/-- Takes something off the front of a text; nothing, if the text is not well formed. -/
abbrev Scanner := StateT (List Char) Option

namespace Scanner

/-- What has not been read yet. -/
def ahead : Scanner (List Char) := get

/-- Refuses the text. -/
def refuse {α : Type} : Scanner α := fun _ => none

/-- Accepts a value that was made of what was read, and refuses the text if there is none. -/
def accept {α : Type} : Option α → Scanner α
  | some value => pure value
  | none => refuse

/-- Takes the next character. -/
def next : Scanner Char
  | [] => none
  | c :: rest => some (c, rest)

/-- Takes some characters. -/
def take (count : Nat) : Scanner (List Char) := fun text =>
  let (front, rest) := text.splitAt count
  if front.length < count then none else some (front, rest)

/-- Takes the characters at the front that have a property. -/
def takeWhile (property : Char → Bool) : Scanner (List Char) := fun text =>
  some (text.span property)

/-- Takes a given character and refuses any other. -/
def expect (expected : Char) : Scanner Unit := do
  if (← next) != expected then refuse

/-- Whether the text goes on with the given characters. -/
def startsWith (start : List Char) : Scanner Bool := return start.isPrefixOf (← ahead)

/-- Takes the given characters if the text goes on with them, and tells whether it did. -/
def skip (start : List Char) : Scanner Bool := fun text =>
  if start.isPrefixOf text then some (true, text.drop start.length) else some (false, text)

/-- Collects the answers of a step until it has none.  There are as many answers at most as a text,
the bound, has characters. -/
def collectWithin {α : Type} (step : Scanner (Option α)) : List Char → Scanner (List α)
  | [] => do
    match ← step with
    | none => return []
    | some _ => refuse
  | _ :: bound => do
    match ← step with
    | none => return []
    | some answer => return answer :: (← collectWithin step bound)

/-- Collects the answers of a step until it has none.  A step that answers takes a character at
least. -/
def collect {α : Type} (step : Scanner (Option α)) : Scanner (List α) := do
  collectWithin step (← ahead)

/-- Reads a whole text. -/
def runAll {α : Type} (scanner : Scanner α) (text : List Char) : Option α :=
  match scanner text with
  | some (value, []) => some value
  | _ => none

/-- Takes spaces and tabs. -/
def blanks : Scanner Unit := do
  let _ ← takeWhile fun c => c == ' ' || c == '\t'

/-- A number that is written to a base with a fixed count of digits. -/
def numeral (base count : Nat) : Scanner Nat := do
  accept (Numeral.number? base (← take count))

/-- The character of a number, unless the number has none. -/
def character? (number : Nat) : Option Char :=
  if h : number.isValidChar then some (Char.ofNatAux number h) else none

end Scanner

end Interlock
