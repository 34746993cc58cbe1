/-
Combination of arguments.

A method that is called from several sites sees one input.  The combiners here fold the arguments
of the sites that run, field by field, with an operation for which zero is neutral.
-/
import Interlock.Plan.Action

namespace Interlock.Combination

/-- Adds the arguments of one site to what was folded so far, if the site runs. -/
def foldSite (op : BinaryOp) (fields : List Field) (folded : Bundle) (arguments : Bundle)
    (run : NodeId) : Build Bundle := do
  ofExcept (arguments.expectFields fields)
  let nodes ← (folded.nodes.zip arguments.nodes).mapM fun (current, argument) => do
    let idle ← Build.constant 0 (← Build.width argument)
    let gated ← Build.mux run argument idle
    Build.binary op current gated
  ofExcept (Bundle.ofNodes fields nodes)

/-- Folds the arguments of all sites that run, starting from zero. -/
def foldRunning (op : BinaryOp) (shape : Shape) : Combiner := fun arguments runs => do
  (arguments.zip runs).foldlM
    (fun folded (bundle, run) => foldSite op shape.fields folded bundle run)
    (← Build.zeros shape.fields)

/-- The bitwise disjunction of the arguments of all sites that run: for methods whose callers set
flags. -/
def disjunction (shape : Shape) : Combiner := foldRunning .or shape

/-- The sum of the arguments of all sites that run, without carry out. -/
def sum (shape : Shape) : Combiner := foldRunning .add shape

end Interlock.Combination
