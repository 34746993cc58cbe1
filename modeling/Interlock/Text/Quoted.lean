/-
Text between quotes, with a backslash in front of quotes and backslashes.

Reading takes the character after a backslash as it is and ends at the first quote that has no
backslash in front.
-/
namespace Interlock.Quoted

/-- Puts a backslash in front of every quote and every backslash. -/
def encode : List Char → List Char
  | [] => []
  | c :: rest =>
    if c = '"' ∨ c = '\\' then '\\' :: c :: encode rest else c :: encode rest

/-- Reads up to the closing quote: the text before it and what follows it. -/
def decode : List Char → Option (List Char × List Char)
  | [] => none
  | '"' :: rest => some ([], rest)
  | '\\' :: c :: rest => (decode rest).map fun (text, after) => (c :: text, after)
  | ['\\'] => none
  | c :: rest => (decode rest).map fun (text, after) => (c :: text, after)

/-- A text in quotes. -/
def quote (text : String) : String := "\"" ++ String.ofList (encode text.toList) ++ "\""

end Interlock.Quoted
