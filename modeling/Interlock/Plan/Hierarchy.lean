/-
The hierarchy of blocks.

A block groups actions under a name, and may be part of another block.  A part is added after
the block it belongs to, so the chain from a block to the block that holds it, and on, visits
smaller and smaller numbers: as many steps as there are blocks are enough for every walk.
-/
import Interlock.Plan.Fault

namespace Interlock

/-- A named group of actions. -/
structure Block where
  name : String
  /-- The block it is part of. -/
  parent : Option BlockId
  deriving DecidableEq, Repr

/-- The blocks of a design, numbered from 0 as they were added. -/
structure Hierarchy where
  blocks : Array Block
  deriving DecidableEq, Repr

namespace Hierarchy

/-- No blocks. -/
def empty : Hierarchy := ⟨#[]⟩

instance : Inhabited Hierarchy := ⟨empty⟩

/-- The number of blocks. -/
def size (hierarchy : Hierarchy) : Nat := hierarchy.blocks.size

/-- Looks a block up. -/
def block (hierarchy : Hierarchy) (id : BlockId) : Except Fault Block :=
  match hierarchy.blocks[id]? with
  | some block => .ok block
  | none => .error (.unknownBlock id)

/-- The blocks on the way up, starting with the given one, for a number of steps at most. -/
def chain (hierarchy : Hierarchy) : Nat → BlockId → List (BlockId × Block)
  | 0, _ => []
  | steps + 1, id =>
    match hierarchy.blocks[id]? with
    | none => []
    | some block => (id, block) :: (block.parent.map (hierarchy.chain steps)).getD []

/-- A block and all that hold it, the innermost first. -/
def lineage (hierarchy : Hierarchy) (id : BlockId) : Except Fault (List (BlockId × Block)) := do
  let _ ← hierarchy.block id
  return hierarchy.chain hierarchy.size id

/-- The outermost block around a block. -/
def root (hierarchy : Hierarchy) (id : BlockId) : Except Fault BlockId := do
  return ((← hierarchy.lineage id).getLast?.map Prod.fst).getD id

/-- The names from the outermost block down, with dots between. -/
def path (hierarchy : Hierarchy) (id : BlockId) : Except Fault String := do
  return ".".intercalate ((← hierarchy.lineage id).reverse.map (·.2.name))

/-- The name of something inside a block, or outside all blocks. -/
def qualify (hierarchy : Hierarchy) (owner : Option BlockId) (name : String) :
    Except Fault String :=
  match owner with
  | none => .ok name
  | some block => return (← hierarchy.path block) ++ "." ++ name

/-- Adds a block.  Two parts of one block differ in name, and so do two outermost blocks. -/
def add (hierarchy : Hierarchy) (name : String) (parent : Option BlockId) :
    Except Fault (BlockId × Hierarchy) := do
  let qualified ← hierarchy.qualify parent name
  if hierarchy.blocks.contains ⟨name, parent⟩ then throw (.duplicateBlock qualified)
  return (hierarchy.size, ⟨hierarchy.blocks.push ⟨name, parent⟩⟩)

end Hierarchy

end Interlock
