/-
The plan of a design: everything declared but the logic.
-/
import Interlock.Plan.CallSite
import Interlock.Plan.Coupling

namespace Interlock

/-- The blocks, actions, calls and couplings of a design. -/
structure Plan where
  blocks : Hierarchy
  roster : Roster
  calls : Calls
  couplings : Couplings

namespace Plan

/-- Nothing is declared. -/
def empty : Plan := ⟨.empty, .empty, .empty, .empty⟩

instance : Inhabited Plan := ⟨empty⟩

/-- The qualified name of an action, or else its number. -/
def name (plan : Plan) (action : ActionId) : String := plan.roster.name action

end Plan

end Interlock
