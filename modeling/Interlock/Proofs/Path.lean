/-
Paths of blocks.

Two blocks of a hierarchy differ in the names from the outermost block down, because parts of one
block differ in name and a part comes after the block it belongs to.  Their paths may be the same
all the same: a name may contain a dot, and a path does not show whether a dot is part of a name or
stands between two.  Two blocks share a path exactly if their names, cut at all dots, agree.  If no
name contains a dot, a path stands for one block; if blocks share a path, it stands for the latest.
-/
import Interlock.Blueprint.Assembly
import Interlock.Proofs.Hierarchy
import Mathlib.Data.List.Basic

namespace Interlock.Hierarchy

variable {hierarchy hierarchy' : Hierarchy} {id a b : BlockId} {name : String}
  {parent : Option BlockId}

/-! ### Names and paths -/

/-- The names from the outermost block down to the given one. -/
def names (hierarchy : Hierarchy) (id : BlockId) : List String :=
  (hierarchy.chain hierarchy.size id).reverse.map (·.2.name)

theorem path_eq_ok_iff {path : String} : hierarchy.path id = .ok path ↔
    id < hierarchy.size ∧ path = ".".intercalate (hierarchy.names id) := by
  unfold Hierarchy.path
  rw [bind_eq_ok_iff]
  constructor
  · rintro ⟨blocks, hlineage, hpath⟩
    obtain ⟨hlt, rfl⟩ := lineage_eq_ok_iff.mp hlineage
    exact ⟨hlt, (Except.ok.inj hpath).symm⟩
  · rintro ⟨hlt, rfl⟩
    exact ⟨_, lineage_eq_ok_iff.mpr ⟨hlt, rfl⟩, rfl⟩

/-! ### Hierarchies that blocks are added to -/

/-- What adding blocks leads to. -/
inductive Grown : Hierarchy → Prop
  | empty : Grown .empty
  | add {hierarchy hierarchy' : Hierarchy} {name : String} {parent : Option BlockId}
      {id : BlockId} (hgrown : Grown hierarchy)
      (hadd : hierarchy.add name parent = .ok (id, hierarchy')) : Grown hierarchy'

/-- A block is added inside one that is there, and differs from the other parts of it. -/
theorem add_eq_ok_iff : hierarchy.add name parent = .ok (id, hierarchy') ↔
    (∀ block ∈ parent, block < hierarchy.size) ∧ ⟨name, parent⟩ ∉ hierarchy.blocks ∧
      id = hierarchy.size ∧ hierarchy' = ⟨hierarchy.blocks.push ⟨name, parent⟩⟩ := by
  unfold add
  rw [bind_eq_ok_iff]
  constructor
  · rintro ⟨qualified, hqualify, h⟩
    dsimp only at h
    split at h
    · cases h
    next hnew =>
      cases h
      exact ⟨lt_of_qualify hqualify, fun hmem => hnew (Array.contains_iff_mem.mpr hmem), rfl, rfl⟩
  · rintro ⟨hparent, hnew, rfl, rfl⟩
    have hqualify : ∃ qualified, hierarchy.qualify parent name = .ok qualified := by
      cases parent with
      | none => exact ⟨name, rfl⟩
      | some block =>
        exact ⟨_, bind_eq_ok_iff.mpr ⟨_, path_eq_ok_iff.mpr ⟨hparent block rfl, rfl⟩, rfl⟩⟩
    refine hqualify.imp fun qualified hqualified => ⟨hqualified, ?_⟩
    rw [if_neg fun hcontains => hnew (Array.contains_iff_mem.mp hcontains)]
    rfl

/-- Parts come after the blocks they belong to, and no two blocks agree in name and parent. -/
structure Layered (hierarchy : Hierarchy) : Prop where
  parent_lt : ∀ {id : BlockId} {block : Block} {parent : BlockId},
    hierarchy.blocks[id]? = some block → block.parent = some parent → parent < id
  distinct : ∀ {a b : BlockId} {block : Block},
    hierarchy.blocks[a]? = some block → hierarchy.blocks[b]? = some block → a = b

/-- Adding a block keeps the order, and the new block is like no other. -/
theorem Layered.add (hlayered : hierarchy.Layered)
    (h : hierarchy.add name parent = .ok (id, hierarchy')) : hierarchy'.Layered := by
  obtain ⟨hparent, hnew, -, rfl⟩ := add_eq_ok_iff.mp h
  have hold : ∀ id : BlockId, ¬ hierarchy.blocks[id]? = some ⟨name, parent⟩ := fun id hid =>
    hnew (Array.mem_of_getElem? hid)
  refine ⟨fun {id block above} hid habove => ?_, fun {a b block} ha hb => ?_⟩
  · rw [Array.getElem?_push] at hid
    split at hid
    next hid' =>
      cases hid
      exact hid' ▸ hparent above habove
    · exact hlayered.parent_lt hid habove
  · rw [Array.getElem?_push] at ha hb
    split at ha <;> split at hb
    next ha' hb' => exact ha'.trans hb'.symm
    · cases ha
      exact absurd hb (hold b)
    · cases hb
      exact absurd ha (hold a)
    · exact hlayered.distinct ha hb

theorem Grown.layered (hgrown : hierarchy.Grown) : hierarchy.Layered := by
  induction hgrown with
  | empty => exact ⟨(fun h => nomatch h), (fun h _ => nomatch h)⟩
  | add _ hadd ih => exact ih.add hadd

/-! ### Blocks differ in their names -/

/-- The way up from a block ends before as many steps as its number says, and one more. -/
theorem chain_eq_of_lt (hlayered : hierarchy.Layered) (id : BlockId) : ∀ {steps steps' : Nat},
    id < steps → id < steps' → hierarchy.chain steps id = hierarchy.chain steps' id := by
  induction id using Nat.strongRecOn with
  | ind id ih =>
    intro steps steps' hsteps hsteps'
    obtain ⟨steps, rfl⟩ := Nat.exists_eq_add_one.mpr (Nat.zero_lt_of_lt hsteps)
    obtain ⟨steps', rfl⟩ := Nat.exists_eq_add_one.mpr (Nat.zero_lt_of_lt hsteps')
    unfold chain
    cases hblock : hierarchy.blocks[id]? with
    | none => rfl
    | some block =>
      dsimp only
      cases hparent : block.parent with
      | none => rfl
      | some parent =>
        have hlt := hlayered.parent_lt hblock hparent
        simp only [Option.map_some, Option.getD_some]
        rw [ih parent hlt (Nat.lt_of_lt_of_le hlt (Nat.le_of_lt_succ hsteps))
          (Nat.lt_of_lt_of_le hlt (Nat.le_of_lt_succ hsteps'))]

/-- The names down to a part are those down to the block around it, and its own. -/
theorem names_eq (hlayered : hierarchy.Layered)
    (hblock : hierarchy.blocks[id]? = some ⟨name, parent⟩) :
    hierarchy.names id = (parent.map hierarchy.names).getD [] ++ [name] := by
  have hlt : id < hierarchy.size := (Array.getElem?_eq_some_iff.mp hblock).1
  obtain ⟨steps, hsize⟩ := Nat.exists_eq_add_one.mpr (Nat.zero_lt_of_lt hlt)
  have hnames : hierarchy.names id =
      (((parent.map (hierarchy.chain steps)).getD []).reverse.map (·.2.name)) ++ [name] := by
    unfold names
    rw [hsize, chain, hblock]
    simp only [List.reverse_cons, List.map_append, List.map_cons, List.map_nil]
  rw [hnames]
  cases parent with
  | none => rfl
  | some parent =>
    have hparent : parent < id := hlayered.parent_lt hblock rfl
    have hsteps : parent < steps :=
      Nat.lt_of_lt_of_le hparent (Nat.le_of_lt_succ (Nat.lt_of_lt_of_eq hlt hsize))
    simp only [Option.map_some, Option.getD_some, names]
    rw [chain_eq_of_lt hlayered parent hsteps (Nat.lt_trans hparent hlt)]

theorem exists_block (hlt : id < hierarchy.size) :
    ∃ block, hierarchy.blocks[id]? = some block :=
  ⟨_, Array.getElem?_eq_getElem hlt⟩

theorem names_ne_nil (hlayered : hierarchy.Layered) (hlt : id < hierarchy.size) :
    hierarchy.names id ≠ [] := by
  obtain ⟨block, hblock⟩ := exists_block hlt
  rw [names_eq hlayered hblock]
  exact List.concat_ne_nil _ _

/-- No two blocks agree in all names. -/
theorem names_injective (hlayered : hierarchy.Layered) (a : BlockId) : ∀ {b : BlockId},
    a < hierarchy.size → b < hierarchy.size → hierarchy.names a = hierarchy.names b → a = b := by
  induction a using Nat.strongRecOn with
  | ind a ih =>
    intro b ha hb h
    obtain ⟨⟨name, parent⟩, hblock⟩ := exists_block ha
    obtain ⟨⟨name', parent'⟩, hblock'⟩ := exists_block hb
    rw [names_eq hlayered hblock, names_eq hlayered hblock'] at h
    obtain ⟨habove, hname⟩ := List.append_inj' h rfl
    obtain rfl : name = name' := List.head_eq_of_cons_eq hname
    -- what is left is that the blocks around them are one, so that the two are alike
    suffices parent = parent' from hlayered.distinct hblock (this ▸ hblock')
    have hthere : ∀ {id above}, hierarchy.blocks[id]? = some ⟨name, some above⟩ →
        id < hierarchy.size → above < hierarchy.size := fun hid hlt =>
      Nat.lt_trans (hlayered.parent_lt hid rfl) hlt
    cases parent with
    | none =>
      cases parent' with
      | none => rfl
      | some above' => exact absurd habove.symm (names_ne_nil hlayered (hthere hblock' hb))
    | some above =>
      cases parent' with
      | none => exact absurd habove (names_ne_nil hlayered (hthere hblock ha))
      | some above' =>
        exact congrArg some (ih above (hlayered.parent_lt hblock rfl) (hthere hblock ha)
          (hthere hblock' hb) habove)

/-! ### What a path shows of the names -/

/-- The names from the outermost block down, cut at all dots. -/
def segments (hierarchy : Hierarchy) (id : BlockId) : List (List Char) :=
  (hierarchy.names id).flatMap (·.toList.splitOn '.')

/-- Texts with separators between them, cut at all separators, are the texts, each cut so. -/
theorem splitOn_intercalate_eq_flatMap {α : Type} [BEq α] [LawfulBEq α] (separator : α) :
    ∀ {texts : List (List α)}, texts ≠ [] →
      ([separator].intercalate texts).splitOn separator = texts.flatMap (·.splitOn separator)
  | [text], _ => by simp
  | text :: next :: rest, _ => by
    rw [List.intercalate_cons_cons, List.append_assoc, List.singleton_append,
      List.splitOn_append_cons_self,
      splitOn_intercalate_eq_flatMap separator (List.cons_ne_nil next rest),
      List.flatMap_cons (x := text)]

theorem splitOn_injective {α : Type} [BEq α] [LawfulBEq α] (separator : α) :
    Function.Injective (List.splitOn separator) :=
  Function.LeftInverse.injective (g := [separator].intercalate) fun _ =>
    List.intercalate_splitOn separator

/-- Two lists of names are written as one path exactly if they agree when cut at all dots. -/
theorem intercalate_eq_iff {names names' : List String} (h : names ≠ []) (h' : names' ≠ []) :
    ".".intercalate names = ".".intercalate names' ↔
      names.flatMap (·.toList.splitOn '.') = names'.flatMap (·.toList.splitOn '.') := by
  have hcut : ∀ {names : List String}, names ≠ [] →
      (".".intercalate names).toList.splitOn '.' = names.flatMap (·.toList.splitOn '.') := by
    intro names hne
    rw [String.toList_intercalate]
    exact (splitOn_intercalate_eq_flatMap '.' (by simpa using hne)).trans
      (List.flatMap_map ..)
  rw [← hcut h, ← hcut h', (splitOn_injective '.').eq_iff, String.toList_inj]

/-- Blocks share a path exactly if their names agree when cut at all dots. -/
theorem path_eq_iff (hlayered : hierarchy.Layered) (ha : a < hierarchy.size)
    (hb : b < hierarchy.size) :
    hierarchy.path a = hierarchy.path b ↔ hierarchy.segments a = hierarchy.segments b := by
  rw [path_eq_ok_iff.mpr ⟨ha, rfl⟩, path_eq_ok_iff.mpr ⟨hb, rfl⟩, Except.ok.injEq]
  exact intercalate_eq_iff (names_ne_nil hlayered ha) (names_ne_nil hlayered hb)

/-- Names without dots are not cut. -/
theorem segments_eq_of_dotless (h : ∀ name ∈ hierarchy.names id, '.' ∉ name.toList) :
    hierarchy.segments id = (hierarchy.names id).map String.toList := by
  unfold segments
  rw [List.flatMap_congr fun name hname => List.splitOn_eq_singleton (h name hname),
    List.map_eq_flatMap]

/-! ### The block of a path -/

/-- The last number below a bound with a property is the one that no later one has. -/
theorem getLast?_filter_range_eq_some_iff {p : Nat → Bool} (bound : Nat) {last : Nat} :
    ((List.range bound).filter p).getLast? = some last ↔
      last < bound ∧ p last ∧ ∀ later, last < later → later < bound → ¬ p later := by
  induction bound with
  | zero => simp
  | succ bound ih =>
    rw [List.range_succ, List.filter_append]
    by_cases hp : p bound
    · simp only [List.filter_singleton, hp, cond_true, List.getLast?_concat, Option.some.injEq]
      refine ⟨?_, fun ⟨hlt, _, hlast⟩ => ?_⟩
      · rintro rfl
        exact ⟨Nat.lt_succ_self _, hp, fun later h h' => absurd h (by omega)⟩
      · exact Nat.le_antisymm (Nat.not_lt.mp fun h => hlast bound h (Nat.lt_succ_self _) hp)
          (Nat.le_of_lt_succ hlt)
    · simp only [List.filter_singleton, hp, cond_false, List.append_nil]
      rw [ih]
      refine ⟨fun ⟨hlt, hlast, hno⟩ => ⟨by omega, hlast, fun later h h' => ?_⟩,
        fun ⟨hlt, hlast, hno⟩ => ⟨?_, hlast, fun later h h' => hno later h (by omega)⟩⟩
      · rcases Nat.eq_or_lt_of_le (Nat.le_of_lt_succ h') with rfl | hlt'
        · exact hp
        · exact hno later h hlt'
      · exact Nat.lt_of_le_of_ne (Nat.le_of_lt_succ hlt) fun h => hp (h ▸ hlast)

theorem findPath?_eq_some_iff {path : String} : hierarchy.findPath? path = some id ↔
    id < hierarchy.size ∧ hierarchy.path id = .ok path ∧
      ∀ later, id < later → later < hierarchy.size → hierarchy.path later ≠ .ok path := by
  have hok : ∀ id, ((hierarchy.path id).toOption == some path) = true ↔
      hierarchy.path id = .ok path := by
    intro id
    cases hierarchy.path id <;> simp [Except.toOption]
  unfold findPath?
  rw [getLast?_filter_range_eq_some_iff]
  simp only [hok]

/-- **Paths identify blocks as far as dots tell.**  However blocks were added, two of them share a
path exactly if their names from the outermost block down agree when cut at all dots; if none of
their names contains a dot, the two are then one.  A reference by a path reaches the block that has
it exactly if no later block agrees with it so. -/
theorem paths_identify_up_to_dots (hgrown : hierarchy.Grown) (ha : a < hierarchy.size)
    (hb : b < hierarchy.size) :
    (hierarchy.path a = hierarchy.path b ↔ hierarchy.segments a = hierarchy.segments b) ∧
    ((∀ name ∈ hierarchy.names a ++ hierarchy.names b, '.' ∉ name.toList) →
      hierarchy.path a = hierarchy.path b → a = b) ∧
    ∃ path, hierarchy.path a = .ok path ∧
      (hierarchy.findPath? path = some a ↔ ∀ later, a < later → later < hierarchy.size →
        hierarchy.segments later ≠ hierarchy.segments a) := by
  have hlayered := hgrown.layered
  refine ⟨path_eq_iff hlayered ha hb, fun hdotless hpath => ?_, ?_⟩
  · have hsegments := (path_eq_iff hlayered ha hb).mp hpath
    rw [segments_eq_of_dotless fun name h => hdotless name (List.mem_append_left _ h),
      segments_eq_of_dotless fun name h => hdotless name (List.mem_append_right _ h)] at hsegments
    exact names_injective hlayered a ha hb
      (List.map_injective_iff.mpr (fun _ _ => String.toList_inj.mp) hsegments)
  · have hpath := path_eq_ok_iff.mpr ⟨ha, rfl⟩
    refine ⟨_, hpath, ?_⟩
    rw [findPath?_eq_some_iff]
    refine ⟨fun h later hlater hlt => ?_, fun h => ⟨ha, hpath, fun later hlater hlt => ?_⟩⟩
    · rw [Ne, ← path_eq_iff hlayered hlt ha, hpath]
      exact h.2.2 later hlater hlt
    · rw [← hpath, Ne, path_eq_iff hlayered hlt ha]
      exact h later hlater hlt

/-- A block with a part, and a block beside them that is named like the path of that part. -/
def ambiguous : Hierarchy := ⟨#[⟨"a", none⟩, ⟨"b", some 0⟩, ⟨"a.b", none⟩]⟩

theorem ambiguous_grown : ambiguous.Grown := by
  have houter : empty.add "a" none = .ok (0, ⟨#[⟨"a", none⟩]⟩) :=
    add_eq_ok_iff.mpr ⟨by decide, by decide +kernel, rfl, rfl⟩
  have hpart : (⟨#[⟨"a", none⟩]⟩ : Hierarchy).add "b" (some 0) =
      .ok (1, ⟨#[⟨"a", none⟩, ⟨"b", some 0⟩]⟩) :=
    add_eq_ok_iff.mpr ⟨by decide, by decide +kernel, rfl, rfl⟩
  have hbeside : (⟨#[⟨"a", none⟩, ⟨"b", some 0⟩]⟩ : Hierarchy).add "a.b" none =
      .ok (2, ambiguous) :=
    add_eq_ok_iff.mpr ⟨by decide, by decide +kernel, rfl, rfl⟩
  exact ((Grown.empty.add houter).add hpart).add hbeside

/-- The part and the block beside it agree when cut at dots, and the block beside is found. -/
theorem ambiguous_identified :
    ambiguous.Grown ∧ 1 < ambiguous.size ∧ 2 < ambiguous.size ∧
      ambiguous.path 1 = ambiguous.path 2 ∧ ambiguous.findPath? "a.b" ≠ some 1 := by
  have hsegments : ambiguous.segments 2 = ambiguous.segments 1 := by decide +kernel
  obtain ⟨hshared, -, path, hpath, hfound⟩ := paths_identify_up_to_dots (a := 1) (b := 2)
    ambiguous_grown (by decide) (by decide)
  have hab : ambiguous.path 1 = .ok "a.b" :=
    path_eq_ok_iff.mpr ⟨by decide, by decide +kernel⟩
  obtain rfl : path = "a.b" := Except.ok.inj (hpath.symm.trans hab)
  exact ⟨ambiguous_grown, by decide, by decide, hshared.mpr hsegments.symm,
    fun h => hfound.mp h 2 (by decide) (by decide) hsegments⟩

/-- Different blocks may share a path. -/
theorem part_shadowed : ¬ ∀ hierarchy : Hierarchy, hierarchy.Grown →
    ∀ a b, a < hierarchy.size → b < hierarchy.size → a ≠ b →
      hierarchy.path a ≠ hierarchy.path b := by
  intro h
  refine h ambiguous ambiguous_grown 1 2 (by decide) (by decide) (by decide) ?_
  exact (path_eq_iff ambiguous_grown.layered (by decide) (by decide)).mpr (by decide +kernel)

end Interlock.Hierarchy
