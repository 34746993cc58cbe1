/-
Blocks that are there.

Everything that is asked of a block, its name, what holds it and the outermost block around it, is
answered if the block is there; so a name can be qualified only inside a block that is there.
-/
import Interlock.Plan.Hierarchy
import Interlock.Proofs.Answer

namespace Interlock.Hierarchy

variable {hierarchy : Hierarchy} {id : BlockId}

theorem block_eq_ok_iff {block : Block} :
    hierarchy.block id = .ok block ↔ hierarchy.blocks[id]? = some block := by
  unfold Hierarchy.block
  cases hierarchy.blocks[id]? <;> simp

theorem lineage_eq_ok_iff {blocks : List (BlockId × Block)} : hierarchy.lineage id = .ok blocks ↔
    id < hierarchy.size ∧ blocks = hierarchy.chain hierarchy.size id := by
  unfold lineage
  rw [bind_eq_ok_iff]
  constructor
  · rintro ⟨block, hblock, hpure⟩
    cases hpure
    exact ⟨(Array.getElem?_eq_some_iff.mp (block_eq_ok_iff.mp hblock)).1, rfl⟩
  · rintro ⟨hlt, rfl⟩
    exact ⟨_, block_eq_ok_iff.mpr (Array.getElem?_eq_getElem hlt), rfl⟩

/-- What is on the way up from a block is there. -/
theorem lt_of_mem_chain (steps : Nat) : ∀ {id : BlockId} {entry : BlockId × Block},
    entry ∈ hierarchy.chain steps id → entry.1 < hierarchy.size := by
  induction steps with
  | zero => exact fun h => nomatch h
  | succ steps ih =>
      intro id entry h
      unfold chain at h
      cases hblock : hierarchy.blocks[id]? with
      | none =>
          rw [hblock] at h
          cases h
      | some block =>
          rw [hblock] at h
          rcases List.mem_cons.mp h with rfl | h
          · exact (Array.getElem?_eq_some_iff.mp hblock).1
          · cases hparent : block.parent with
            | none =>
                rw [hparent] at h
                cases h
            | some parent =>
                rw [hparent] at h
                exact ih h

/-- The outermost block around a block that is there is there, and has a path. -/
theorem exists_root (h : id < hierarchy.size) :
    ∃ root path, hierarchy.root id = .ok root ∧ hierarchy.path root = .ok path := by
  have hlineage := lineage_eq_ok_iff.mpr ⟨h, rfl⟩
  have hroot : ((hierarchy.chain hierarchy.size id).getLast?.map Prod.fst).getD id
      < hierarchy.size := by
    cases hlast : (hierarchy.chain hierarchy.size id).getLast? with
    | none => exact h
    | some entry => exact lt_of_mem_chain _ (List.mem_of_getLast? hlast)
  exact ⟨_, _, bind_eq_ok_iff.mpr ⟨_, hlineage, rfl⟩,
    bind_eq_ok_iff.mpr ⟨_, lineage_eq_ok_iff.mpr ⟨hroot, rfl⟩, rfl⟩⟩

/-- A name is qualified only inside a block that is there. -/
theorem lt_of_qualify {owner : Option BlockId} {name qualified : String}
    (h : hierarchy.qualify owner name = .ok qualified) :
    ∀ block, owner = some block → block < hierarchy.size := by
  rintro block rfl
  obtain ⟨path, hpath, -⟩ := bind_eq_ok_iff.mp h
  obtain ⟨blocks, hlineage, -⟩ := bind_eq_ok_iff.mp hpath
  exact (lineage_eq_ok_iff.mp hlineage).1

/-- A block is added to those that are there. -/
theorem size_of_add {name : String} {parent : Option BlockId} {answer : BlockId × Hierarchy}
    (h : hierarchy.add name parent = .ok answer) : answer.2.size = hierarchy.size + 1 := by
  obtain ⟨qualified, -, h⟩ := bind_eq_ok_iff.mp h
  dsimp only at h
  split at h
  · cases h
  · cases h
    exact Array.size_push ..

end Interlock.Hierarchy
