/-
Call sites: the places where one action calls a method.
-/
import Interlock.Plan.Action

namespace Interlock

/-- A call of a method by an action. -/
structure CallSite where
  caller : ActionId
  callee : ActionId
  /-- The bit under which the caller makes the call. -/
  enable : NodeId
  arguments : Bundle
  deriving DecidableEq, Repr

/-- The call sites of a design, numbered from 0 as they were declared. -/
structure Calls where
  sites : Array CallSite
  deriving DecidableEq, Repr

namespace Calls

/-- No call sites. -/
def empty : Calls := ⟨#[]⟩

instance : Inhabited Calls := ⟨empty⟩

/-- The number of call sites. -/
def size (calls : Calls) : Nat := calls.sites.size

/-- All call sites with their numbers. -/
def entries (calls : Calls) : List (CallId × CallSite) :=
  calls.sites.toList.zipIdx.map fun (site, id) => (id, site)

/-- The call sites of a caller. -/
def byCaller (calls : Calls) (caller : ActionId) : List (CallId × CallSite) :=
  calls.entries.filter (·.2.caller == caller)

/-- The call sites of a method. -/
def byCallee (calls : Calls) (callee : ActionId) : List (CallId × CallSite) :=
  calls.entries.filter (·.2.callee == callee)

/-- Looks a call site up. -/
def site (calls : Calls) (id : CallId) : Except Fault CallSite :=
  match calls.sites[id]? with
  | some site => .ok site
  | none => .error (.unknownCall id)

/-- Adds a call site. -/
def push (calls : Calls) (site : CallSite) : Calls := ⟨calls.sites.push site⟩

end Calls

end Interlock
