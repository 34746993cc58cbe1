/-
The arguments of the command line.

A command and a file are named in this order; options stand anywhere.  `--json` asks for replies
for programs, `--set NAME=VALUE` gives a setting, and `--log-level LEVEL` is accepted without
effect, since nothing is logged.
-/
import Interlock.Command.Fault

namespace Interlock.Command

/-- What was asked for on the command line, as far as it was read. -/
structure Arguments where
  /-- What is not an option, latest first. -/
  words : List String
  /-- The settings, latest first. -/
  settings : List String
  asJson : Bool
  deriving DecidableEq, Repr

/-- The mark of a setting whose value is part of the same argument. -/
def settingMark : List Char := ['-', '-', 's', 'e', 't', '=']

/-- Adds an argument that is not followed by a value. -/
def Arguments.add? (arguments : Arguments) (argument : String) : Option Arguments :=
  let text := argument.toList
  if argument == "--json" then some { arguments with asJson := true }
  else if settingMark.isPrefixOf text then
    let setting := String.ofList (text.drop settingMark.length)
    some { arguments with settings := setting :: arguments.settings }
  else if text.head? == some '-' then none
  else some { arguments with words := argument :: arguments.words }

/-- Reads arguments one after the other. -/
def Arguments.addAll? (arguments : Arguments) : List String → Option Arguments
  | [] => some arguments
  | "--set" :: setting :: rest =>
    addAll? { arguments with settings := setting :: arguments.settings } rest
  | "--log-level" :: _ :: rest => addAll? arguments rest
  | argument :: rest =>
    match arguments.add? argument with
    | some arguments => addAll? arguments rest
    | none => none

/-- The command of a name.  Only a simulation takes settings. -/
def ofName? (name : String) (settings : List String) : Option Command :=
  if name == "simulate" then some (.simulate settings)
  else if !settings.isEmpty then none
  else [("report", Command.report), ("graph", .graph), ("check", .check)].lookup name

/-- A command, the file it reads, and whether it replies to a program. -/
structure Invocation where
  command : Command
  file : String
  asJson : Bool
  deriving DecidableEq, Repr

/-- Reads the arguments of the command line. -/
def Invocation.parse? (arguments : List String) : Option Invocation := do
  let given ← Arguments.addAll? ⟨[], [], false⟩ arguments
  match given.words with
  | [file, name] => return ⟨← ofName? name given.settings.reverse, file, given.asJson⟩
  | _ => none

/-- How the command line is used. -/
def usage : String :=
  "usage: interlock [--json] report|graph|check|simulate FILE [--set NAME=VALUE]...\n"

end Interlock.Command
