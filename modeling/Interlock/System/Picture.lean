/-
The picture of a system: candidates, conflicts and preferences for Graphviz.

Conflicts are red edges without direction; a dashed arrow leads from a preferred candidate.
-/
import Interlock.System.Basic
import Interlock.Text.Quoted

namespace Interlock.System

/-- The name of a candidate's box. -/
def boxName (index : Nat) : String := "c" ++ toString index

/-- A line of the picture. -/
def pictureLine (content : String) : String := "    " ++ content ++ ";\n"

/-- The box of a candidate. -/
def boxLine (index : Nat) (candidate : Candidate) : String :=
  pictureLine (boxName index ++ " [label=" ++ Quoted.quote candidate.name ++ "]")

/-- An edge between two boxes. -/
def edgeLine (style : String) (edge : Nat × Nat) : String :=
  pictureLine (boxName edge.1 ++ " -> " ++ boxName edge.2 ++ " [" ++ style ++ "]")

/-- The picture of the candidates. -/
def picture (system : System) : String :=
  let boxes := system.contention.candidates.zipIdx.map fun (candidate, index) =>
    boxLine index candidate
  let conflicts := system.contention.edges.map (edgeLine "dir=none, color=red")
  let priorities := system.contention.priorities.map (edgeLine "style=dashed")
  "digraph conflicts \x7b\n" ++ pictureLine "node [shape=box]" ++
    String.join (boxes ++ conflicts ++ priorities) ++ "\x7d\n"

end Interlock.System
