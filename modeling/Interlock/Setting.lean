/-
Settings: words for inputs, as a user types them.

A setting reads `NAME=VALUE`.  The value is decimal, or hexadecimal after `0x`; blanks around the
name and around the value do not count.
-/
import Interlock.Text.Blank
import Interlock.Text.Numeral

namespace Interlock

/-- A word for the input of a name. -/
structure Setting where
  name : String
  word : Nat
  deriving DecidableEq, Repr

/-- Why a setting cannot be used. -/
inductive Setting.Fault where
  /-- There is no equals sign. -/
  | noValue (text : String)
  /-- The value is not a number, or too large for any word. -/
  | badValue (value name : String)
  | unknownInput (name : String)
  /-- The word is too large for the input. -/
  | tooWide (word width : Nat) (name : String)
  deriving DecidableEq, Repr

namespace Setting

/-- What is wrong with a setting. -/
def Fault.message : Fault → String
  | noValue text => "expected NAME=VALUE, got '" ++ text ++ "'"
  | badValue value name => "invalid value '" ++ value ++ "' for '" ++ name ++ "'"
  | unknownInput name => "unknown input '" ++ name ++ "'"
  | tooWide word width name =>
    "value " ++ toString word ++ " does not fit in " ++ toString width ++ "-bit input '" ++
      name ++ "'"

/-- What stands before the first equals sign and what stands after it. -/
def split? : List Char → Option (List Char × List Char)
  | [] => none
  | c :: rest =>
    if c = '=' then some ([], rest)
    else (split? rest).map fun (name, value) => (c :: name, value)

/-- The word that a value without blanks around it stands for. -/
def word? : List Char → Option Nat
  | '0' :: 'x' :: digits => Numeral.word? 16 digits
  | digits => Numeral.word? 10 digits

/-- Reads a setting. -/
def parse (text : String) : Except Fault Setting :=
  match split? text.toList with
  | none => .error (.noValue text)
  | some (name, value) =>
    let value := Blank.trim value
    match word? value with
    | none => .error (.badValue (String.ofList value) (String.ofList name))
    | some word => .ok ⟨String.ofList (Blank.trim name), word⟩

end Setting

end Interlock
