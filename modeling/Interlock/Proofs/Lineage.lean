/-
Walks up from a block.

To find the outermost block around a block, or its path, one walks up from part to whole for as
long as there is a block around.  Nothing bounds such a walk but that a part is added after the
block it belongs to, so that the numbers on the way fall.  Hence every walk ends, at a block that is
part of no other, and as many steps as there are blocks are enough to follow it; what is asked of a
block is then answered from what is asked of the block around it.
-/
import Interlock.Proofs.Ledger
import Interlock.Proofs.Path

namespace Interlock.Hierarchy

variable {hierarchy : Hierarchy} {id : BlockId} {block : Block} {way : List (BlockId × Block)}

/-- Adds blocks one after the other, except those that are refused. -/
def addAll (hierarchy : Hierarchy) (requests : List (String × Option BlockId)) : Hierarchy :=
  requests.foldl (fun hierarchy (name, parent) =>
    match hierarchy.add name parent with
    | .ok (_, larger) => larger
    | .error _ => hierarchy) hierarchy

theorem Grown.addAll (requests : List (String × Option BlockId)) : ∀ {hierarchy : Hierarchy},
    hierarchy.Grown → (hierarchy.addAll requests).Grown := by
  induction requests with
  | nil => exact fun hgrown => hgrown
  | cons request rest ih =>
    intro hierarchy hgrown
    refine ih ?_
    dsimp only
    split
    next hadd => exact hgrown.add hadd
    next => exact hgrown

/-- The walk up from a block, without a bound on its steps: the blocks on it, up to one that is part
of no other. -/
inductive Climb (hierarchy : Hierarchy) : BlockId → List (BlockId × Block) → Prop
  | outermost {id : BlockId} {block : Block} (hblock : hierarchy.blocks[id]? = some block)
      (hparent : block.parent = none) : Climb hierarchy id [(id, block)]
  | inside {id : BlockId} {block : Block} {above : BlockId} {way : List (BlockId × Block)}
      (hblock : hierarchy.blocks[id]? = some block) (hparent : block.parent = some above)
      (hway : Climb hierarchy above way) : Climb hierarchy id ((id, block) :: way)

/-! ### The walk and its end -/

/-- A walk is followed in as many steps as it has blocks. -/
theorem Climb.chain_eq (h : hierarchy.Climb id way) : ∀ {steps : Nat}, way.length ≤ steps →
    hierarchy.chain steps id = way := by
  induction h with
  | outermost hblock hparent =>
    intro steps hsteps
    obtain ⟨steps, rfl⟩ := Nat.exists_eq_add_one.mpr (Nat.lt_of_lt_of_le Nat.zero_lt_one hsteps)
    rw [chain, hblock]
    simp [hparent]
  | inside hblock hparent hway ih =>
    intro steps hsteps
    obtain ⟨steps, rfl⟩ := Nat.exists_eq_add_one.mpr (Nat.zero_lt_of_lt hsteps)
    rw [chain, hblock]
    simp [hparent, ih (Nat.le_of_succ_le_succ hsteps)]

/-- A walk starts at a block that is there. -/
theorem Climb.lt_size (h : hierarchy.Climb id way) : id < hierarchy.size := by
  cases h with
  | outermost hblock _ => exact (Array.getElem?_eq_some_iff.mp hblock).1
  | inside hblock _ _ => exact (Array.getElem?_eq_some_iff.mp hblock).1

/-- The last block of a walk is part of no other. -/
theorem Climb.exists_last (h : hierarchy.Climb id way) : ∃ top block,
    way.getLast? = some (top, block) ∧ hierarchy.blocks[top]? = some block ∧
      block.parent = none := by
  induction h with
  | outermost hblock hparent => exact ⟨_, _, rfl, hblock, hparent⟩
  | inside _ _ _ ih =>
    obtain ⟨top, block, hlast, htop⟩ := ih
    exact ⟨top, block, by rw [List.getLast?_cons, hlast]; rfl, htop⟩

/-- Every walk ends, since the numbers on the way fall. -/
theorem Layered.exists_climb (hlayered : hierarchy.Layered) (id : BlockId) :
    id < hierarchy.size → ∃ way, hierarchy.Climb id way ∧ way.length ≤ id + 1 := by
  induction id using Nat.strongRecOn with
  | ind id ih =>
    intro hlt
    obtain ⟨block, hblock⟩ := exists_block hlt
    cases hparent : block.parent with
    | none => exact ⟨_, .outermost hblock hparent, Nat.le_add_left ..⟩
    | some above =>
      have habove := hlayered.parent_lt hblock hparent
      obtain ⟨way, hway, hlength⟩ := ih above habove (Nat.lt_trans habove hlt)
      refine ⟨_, .inside hblock hparent hway, ?_⟩
      exact Nat.succ_le_succ (Nat.le_trans hlength habove)

/-- The walk from a block is its lineage. -/
theorem Layered.lineage_eq_ok_iff_climb (hlayered : hierarchy.Layered) :
    hierarchy.lineage id = .ok way ↔ hierarchy.Climb id way := by
  have hclimb : ∀ {way}, hierarchy.Climb id way → way.length ≤ hierarchy.size →
      hierarchy.lineage id = .ok way := fun hway hlength =>
    lineage_eq_ok_iff.mpr ⟨hway.lt_size, (hway.chain_eq hlength).symm⟩
  constructor
  · intro hlineage
    have hlt := (lineage_eq_ok_iff.mp hlineage).1
    obtain ⟨climbed, hclimbed, hlength⟩ := hlayered.exists_climb id hlt
    have hsame := hclimb hclimbed (Nat.le_trans hlength hlt)
    rw [hlineage] at hsame
    exact Except.ok.inj hsame ▸ hclimbed
  · intro hway
    obtain ⟨climbed, hclimbed, hlength⟩ := hlayered.exists_climb id hway.lt_size
    have hbound := Nat.le_trans hlength hway.lt_size
    obtain rfl : climbed = way := by
      rw [← hclimbed.chain_eq (Nat.le_max_left _ way.length), hway.chain_eq (Nat.le_max_right ..)]
    exact hclimb hclimbed hbound

/-! ### What is asked of a block -/

section Layered

variable (hlayered : hierarchy.Layered)
include hlayered

theorem Layered.root_eq_of_climb {top : BlockId} (hway : hierarchy.Climb id way)
    (hlast : way.getLast? = some (top, block)) : hierarchy.root id = .ok top := by
  unfold root
  rw [hlayered.lineage_eq_ok_iff_climb.mpr hway]
  show Except.ok ((way.getLast?.map Prod.fst).getD id) = _
  rw [hlast]
  rfl

/-- The outermost block around a part is that around the block it belongs to. -/
theorem Layered.root_eq {above : BlockId} (hblock : hierarchy.blocks[id]? = some block)
    (hparent : block.parent = some above) : hierarchy.root id = hierarchy.root above := by
  have hlt : id < hierarchy.size := (Array.getElem?_eq_some_iff.mp hblock).1
  obtain ⟨way, hway, -⟩ := hlayered.exists_climb above
    (Nat.lt_trans (hlayered.parent_lt hblock hparent) hlt)
  obtain ⟨top, outer, hlast, -⟩ := hway.exists_last
  have hlast' : ((id, block) :: way).getLast? = some (top, outer) := by
    rw [List.getLast?_cons, hlast]
    rfl
  rw [hlayered.root_eq_of_climb hway hlast,
    hlayered.root_eq_of_climb (.inside hblock hparent hway) hlast']

/-- The path of a part is that of the block it belongs to, with its own name behind. -/
theorem Layered.path_eq {above : BlockId} {path : String}
    (hblock : hierarchy.blocks[id]? = some block) (hparent : block.parent = some above)
    (hpath : hierarchy.path above = .ok path) :
    hierarchy.path id = .ok (path ++ "." ++ block.name) := by
  obtain ⟨hlt, rfl⟩ := path_eq_ok_iff.mp hpath
  refine path_eq_ok_iff.mpr ⟨(Array.getElem?_eq_some_iff.mp hblock).1, ?_⟩
  rw [names_eq hlayered hblock, hparent]
  show _ = ".".intercalate (hierarchy.names above ++ [block.name])
  rw [String.intercalate_append_of_ne_nil (names_ne_nil hlayered hlt) (List.cons_ne_nil _ _),
    String.intercalate_singleton]

end Layered

/-! ### What is refused -/

/-- Where a block can be added, its name may be taken. -/
theorem add_of_qualify {name qualified : String} {parent : Option BlockId}
    (h : hierarchy.qualify parent name = .ok qualified) : hierarchy.add name parent =
      if hierarchy.blocks.contains ⟨name, parent⟩ then .error (.duplicateBlock qualified)
      else .ok (hierarchy.size, ⟨hierarchy.blocks.push ⟨name, parent⟩⟩) := by
  unfold add
  rw [h]
  show (if hierarchy.blocks.contains ⟨name, parent⟩ then _ else _ : Except _ _) = _
  split <;> rfl

/-- A ledger that is filled block by block has each under its number, and tells whether a name is
taken inside a block. -/
def Filed (hierarchy : Hierarchy) : Prop :=
  ∃ ledger, Ledger.ofList (fun block : Block => some (block.parent, block.name))
      hierarchy.blocks.toList = some ledger ∧
    (∀ id block, (id, block) ∈ ledger.entries ↔ hierarchy.blocks[id]? = some block) ∧
    ∀ name parent qualified, hierarchy.qualify parent name = .ok qualified →
      hierarchy.add name parent = match ledger.index[(parent, name)]? with
        | some _ => .error (.duplicateBlock qualified)
        | none => .ok (hierarchy.size, ⟨hierarchy.blocks.push ⟨name, parent⟩⟩)

theorem Layered.filed (hlayered : hierarchy.Layered) : hierarchy.Filed := by
  have hdistinct : Ledger.Distinct (fun block : Block => some (block.parent, block.name))
      hierarchy.blocks.toList := by
    rintro a b ⟨name, parent⟩ ⟨name', parent'⟩ key ha hb hkey hkey'
    rw [Array.getElem?_toList] at ha hb
    cases hkey.trans hkey'.symm
    exact hlayered.distinct ha hb
  obtain ⟨ledger, hledger, hrecords⟩ := hdistinct.exists_ledger
  refine ⟨ledger, hledger, fun id block => ?_, fun name parent qualified hqualify => ?_⟩
  · simp [hrecords.entries, List.mem_zipIdx_iff_getElem?]
  · have hindex : ∀ id, ledger.index[(parent, name)]? = some id ↔
        hierarchy.blocks[id]? = some ⟨name, parent⟩ := by
      intro id
      rw [hrecords.index, Array.getElem?_toList]
      constructor
      · rintro ⟨⟨name', parent'⟩, hblock, hkey⟩
        cases hkey
        exact hblock
      · exact fun hblock => ⟨_, hblock, rfl⟩
    rw [add_of_qualify hqualify]
    cases htaken : ledger.index[(parent, name)]? with
    | none =>
        refine if_neg fun hcontains => ?_
        obtain ⟨id, hid⟩ := Array.mem_iff_getElem?.mp (Array.contains_iff_mem.mp hcontains)
        rw [(hindex id).mpr hid] at htaken
        cases htaken
    | some id => exact if_pos (Array.contains_iff_mem.mpr
        (Array.mem_of_getElem? ((hindex id).mp htaken)))

/-- What is asked of a block is answered by a walk up, which ends. -/
structure Founded (hierarchy : Hierarchy) : Prop where
  parent_lt : ∀ (id : BlockId) (block : Block) (above : BlockId),
    hierarchy.blocks[id]? = some block → block.parent = some above → above < id
  /-- From every block there is one walk, which ends. -/
  climbs : ∀ id, id < hierarchy.size → ∃! way, hierarchy.Climb id way
  /-- The walk is followed to its end. -/
  lineage : ∀ id way, hierarchy.lineage id = .ok way ↔ hierarchy.Climb id way
  root : ∀ id, id < hierarchy.size → ∃ top block, hierarchy.root id = .ok top ∧
    hierarchy.blocks[top]? = some block ∧ block.parent = none
  root_outermost : ∀ (id : BlockId) (block : Block),
    hierarchy.blocks[id]? = some block → block.parent = none → hierarchy.root id = .ok id
  root_inside : ∀ (id : BlockId) (block : Block) (above : BlockId),
    hierarchy.blocks[id]? = some block → block.parent = some above →
      hierarchy.root id = hierarchy.root above
  path : ∀ id, id < hierarchy.size → ∃ path, hierarchy.path id = .ok path
  path_outermost : ∀ (id : BlockId) (block : Block),
    hierarchy.blocks[id]? = some block → block.parent = none → hierarchy.path id = .ok block.name
  path_inside : ∀ (id : BlockId) (block : Block) (above : BlockId) (path : String),
    hierarchy.blocks[id]? = some block → block.parent = some above →
      hierarchy.path above = .ok path → hierarchy.path id = .ok (path ++ "." ++ block.name)
  /-- Parts of one block differ in name, and so do outermost blocks. -/
  named_apart : ∀ (a b : BlockId) (block block' : Block), hierarchy.blocks[a]? = some block →
    hierarchy.blocks[b]? = some block' → block.parent = block'.parent →
      block.name = block'.name → a = b
  filed : hierarchy.Filed

/-- **Every walk up ends at an outermost block.**  However blocks are added, refused ones included,
each belongs to one of a smaller number, if to any; so the walk up from a block ends, and the
outermost block and the path it leads to are those of the block around, the path with the own name
behind it. -/
theorem walks_end (requests : List (String × Option BlockId)) :
    (empty.addAll requests).Founded := by
  have hlayered := (Grown.empty.addAll requests).layered
  refine
    { parent_lt := fun id block above => hlayered.parent_lt
      climbs := ?_
      lineage := fun id way => hlayered.lineage_eq_ok_iff_climb
      root := ?_
      root_outermost := fun id block hblock hparent =>
        hlayered.root_eq_of_climb (.outermost hblock hparent) rfl
      root_inside := fun id block above => hlayered.root_eq
      path := fun id hlt => ⟨_, path_eq_ok_iff.mpr ⟨hlt, rfl⟩⟩
      path_outermost := ?_
      path_inside := fun id block above path => hlayered.path_eq
      named_apart := ?_
      filed := hlayered.filed }
  · intro id hlt
    obtain ⟨way, hway, -⟩ := hlayered.exists_climb id hlt
    refine ⟨way, hway, fun other hother => ?_⟩
    have hlineage := hlayered.lineage_eq_ok_iff_climb.mpr hway
    exact Except.ok.inj ((hlayered.lineage_eq_ok_iff_climb.mpr hother).symm.trans hlineage)
  · intro id hlt
    obtain ⟨way, hway, -⟩ := hlayered.exists_climb id hlt
    obtain ⟨top, block, hlast, htop⟩ := hway.exists_last
    exact ⟨top, block, hlayered.root_eq_of_climb hway hlast, htop⟩
  · intro id block hblock hparent
    refine path_eq_ok_iff.mpr ⟨(Array.getElem?_eq_some_iff.mp hblock).1, ?_⟩
    rw [names_eq hlayered hblock, hparent]
    exact String.intercalate_singleton.symm
  · rintro a b ⟨name, parent⟩ ⟨name', parent'⟩ ha hb hparent hname
    dsimp only at hparent hname
    subst hparent hname
    exact hlayered.distinct ha hb

/-- A block with a part, another part of the same name, and a part of a block that is not there. -/
def coreRequests : List (String × Option BlockId) :=
  [("core", none), ("fifo", some 0), ("fifo", some 0), ("lane", some 7)]

/-- The last two are refused, and the part is found inside the outermost block. -/
theorem coreRequests_founded :
    (empty.addAll coreRequests).blocks = #[⟨"core", none⟩, ⟨"fifo", some 0⟩] ∧
      (∃ way, (empty.addAll coreRequests).Climb 1 way) ∧
      (empty.addAll coreRequests).root 1 = .ok 0 ∧
      (empty.addAll coreRequests).path 1 = .ok "core.fifo" := by
  have hblocks : (empty.addAll coreRequests).blocks = #[⟨"core", none⟩, ⟨"fifo", some 0⟩] := by
    decide +kernel
  have hcore : (empty.addAll coreRequests).blocks[0]? = some ⟨"core", none⟩ := by
    rw [hblocks]
    rfl
  have hfifo : (empty.addAll coreRequests).blocks[1]? = some ⟨"fifo", some 0⟩ := by
    rw [hblocks]
    rfl
  have h := walks_end coreRequests
  refine ⟨hblocks, (h.climbs 1 (Array.getElem?_eq_some_iff.mp hfifo).1).exists, ?_, ?_⟩
  · rw [h.root_inside 1 _ 0 hfifo rfl, h.root_outermost 0 _ hcore rfl]
  · exact h.path_inside 1 _ 0 "core" hfifo rfl (h.path_outermost 0 _ hcore rfl)

end Interlock.Hierarchy
