/-
Texts in quotes.

Between double quotes a backslash starts an escape, between single quotes every character stands
for itself.  Either kind can go over several lines when the quote is written three times; then
one or two quotes may stand inside, and just before the closing ones.  Line ends are line feeds.
-/
import Interlock.Text.Scanner

namespace Interlock.Toml

open Scanner

/-- Whether a character may stand for itself on a line: all but control characters, of which tabs
are allowed. -/
def isPlain (c : Char) : Bool := c == '\t' || (31 < c.toNat && c.toNat != 127)

/-- The character whose number is written with some hexadecimal digits. -/
def codePoint (digits : Nat) : Scanner Char := do
  accept (character? (← numeral 16 digits))

/-- The character that an escape stands for; the backslash was taken. -/
def escape : Scanner Char := do
  match ← next with
  | 'b' => return '\x08'
  | 't' => return '\t'
  | 'n' => return '\n'
  | 'f' => return '\x0c'
  | 'r' => return '\r'
  | '"' => return '"'
  | '\\' => return '\\'
  | 'u' => codePoint 4
  | 'U' => codePoint 8
  | _ => refuse

/-! ### On one line -/

/-- The next character between quotes, and none at the closing one. -/
def lineChar (quote : Char) (escapes : Bool) : Scanner (Option Char) := do
  let c ← next
  if c == quote then return none
  else if escapes && c == '\\' then some <$> escape
  else if isPlain c then return some c
  else refuse

/-- A text on one line; the opening quote was taken. -/
def lineText (quote : Char) (escapes : Bool) : Scanner (List Char) :=
  collect (lineChar quote escapes)

/-! ### Over several lines -/

/-- Drops the end of a line after a backslash, with all blanks and line ends that follow. -/
def joinLines : Scanner Unit := do
  blanks
  expect '\n'
  let _ ← takeWhile fun c => c == ' ' || c == '\t' || c == '\n'

/-- What follows a backslash: an escape, or the end of a line, which stands for nothing. -/
def escapeOrJoin : Scanner (List Char) := do
  match (← ahead).head? with
  | some ' ' | some '\t' | some '\n' =>
    joinLines
    return []
  | _ => return [← escape]

/-- The next characters between quotes that are written three times.  A run of quotes that does
not close the text is part of it; one that does is left for later. -/
def blockPart (quote : Char) (escapes : Bool) : Scanner (Option (List Char)) := do
  if ← startsWith [quote, quote, quote] then return none
  let c ← next
  if escapes && c == '\\' then some <$> escapeOrJoin
  else if c == '\n' || isPlain c then return some [c]
  else refuse

/-- A text over several lines; the opening quotes were taken.  A line end right after them is
dropped.  Of the closing run of quotes the last three close the text. -/
def blockText (quote : Char) (escapes : Bool) : Scanner (List Char) := do
  let _ ← skip ['\n']
  let parts ← collect (blockPart quote escapes)
  let closing ← takeWhile (· == quote)
  if 5 < closing.length then refuse
  return parts.flatten ++ closing.drop 3

/-! ### Either -/

/-- A text that starts with a quote. -/
def quotation (quote : Char) : Scanner String := do
  expect quote
  let escapes := quote == '"'
  let text ←
    if ← skip [quote, quote] then blockText quote escapes else lineText quote escapes
  return String.ofList text

/-- A text on one line that starts with a quote. -/
def lineQuotation (quote : Char) : Scanner String := do
  expect quote
  return String.ofList (← lineText quote (quote == '"'))

end Interlock.Toml
