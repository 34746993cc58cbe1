/-
The wires of a bundle.

A request for wires makes one for every field, as wide as the field: they differ from each other and
from whatever was there before.  A wire may get its driver later, but it stays a wire of its width.
-/
import Interlock.Proofs.Circuit.Answered

namespace Interlock

/-- The node is a wire of the width, driven or not. -/
def Circuit.IsWire (circuit : Circuit) (id : NodeId) (w : Nat) : Prop :=
  ∃ name driver, circuit.nodes[id]? = some ⟨w, .wire name driver⟩

/-- Every field has a node of its width. -/
def Bundle.Carried (circuit : Circuit) (bundle : Bundle) : Prop :=
  ∀ field node, (field, node) ∈ bundle.entries → circuit.width node = .ok field.width

/-- Every field has a wire of its width. -/
def Bundle.OfWires (circuit : Circuit) (bundle : Bundle) : Prop :=
  ∀ field node, (field, node) ∈ bundle.entries → circuit.IsWire node field.width

/-- A bundle is its fields and its nodes. -/
theorem Bundle.ext_of_fields_nodes {b b' : Bundle} (hfields : b.fields = b'.fields)
    (hnodes : b.nodes = b'.nodes) : b = b' := by
  have hzip : ∀ entries : List (Field × NodeId),
      entries = (entries.map Prod.fst).zip (entries.map Prod.snd) :=
    fun entries => (List.zip_of_prod rfl rfl)
  obtain ⟨entries⟩ := b
  obtain ⟨entries'⟩ := b'
  change entries.map Prod.fst = entries'.map Prod.fst at hfields
  change entries.map Prod.snd = entries'.map Prod.snd at hnodes
  rw [hzip entries, hzip entries', hfields, hnodes]

section Growth

variable {c c' : Circuit} {id : NodeId} {w : Nat} {bundle : Bundle}

theorem Circuit.IsWire.mono (h : c.IsWire id w) (hle : c ≤ c') : c'.IsWire id w := by
  obtain ⟨name, driver, hnode⟩ := h
  obtain ⟨node', hnode', hbecomes⟩ := hle id _ hnode
  cases hbecomes with
  | same => exact ⟨name, driver, hnode'⟩
  | driven _ _ source => exact ⟨name, some source, hnode'⟩

theorem Circuit.IsWire.width (h : c.IsWire id w) : c.width id = .ok w := by
  obtain ⟨name, driver, hnode⟩ := h
  exact width_eq_ok_iff.mpr ⟨_, hnode, rfl⟩

theorem Circuit.IsWire.lt_size (h : c.IsWire id w) : id < c.size := lt_size_of_width h.width

theorem Circuit.isWire_push (c : Circuit) (w : Nat) (name : String) :
    IsWire ⟨c.nodes.push ⟨w, .wire name none⟩⟩ c.size w := ⟨name, none, Array.getElem?_push_size⟩

theorem Bundle.Carried.lt_size (h : bundle.Carried c) : ∀ node ∈ bundle.nodes, node < c.size := by
  intro node hnode
  obtain ⟨⟨field, _⟩, hentry, rfl⟩ := List.mem_map.mp hnode
  exact Circuit.lt_size_of_width (h field _ hentry)

theorem Bundle.Carried.mono (h : bundle.Carried c) (hle : c ≤ c') : bundle.Carried c' :=
  fun field node hentry => Circuit.width_of_le hle (h field node hentry)

theorem Bundle.OfWires.mono (h : bundle.OfWires c) (hle : c ≤ c') : bundle.OfWires c' :=
  fun field node hentry => (h field node hentry).mono hle

theorem Bundle.OfWires.carried (h : bundle.OfWires c) : bundle.Carried c :=
  fun field node hentry => (h field node hentry).width

end Growth

namespace Build

variable {c c' : Circuit}

theorem bundle_yields_iff {fields : List Field} {request : Field → Build NodeId} {b : Bundle} :
    (bundle fields request).Yields c b c' ↔
      (fields.mapM fun field => do return (field, ← request field)).Yields c b.entries c' := by
  unfold bundle
  rw [yields_bind_iff]
  constructor
  · rintro ⟨entries, c₁, hentries, hpure⟩
    obtain ⟨rfl, rfl⟩ := yields_pure_iff.mp hpure
    exact hentries
  · exact fun h => ⟨b.entries, c', h, yields_pure_iff.mpr ⟨rfl, rfl⟩⟩

/-- The wires of a bundle are as wide as the fields, and are made one after the other. -/
theorem wires_yields {owner : String} {fields : List Field} {b : Bundle}
    (h : (wires owner fields).Yields c b c') :
    b.OfWires c' ∧ b.nodes.Nodup ∧ ∀ node ∈ b.nodes, c.size ≤ node := by
  obtain ⟨entries⟩ := b
  have hentries : (fields.mapM fun field => do
      return (field, ← wire (fieldName owner field) field.width)).Yields c entries c' :=
    bundle_yields_iff.mp h
  clear h
  induction fields generalizing c entries with
  | nil =>
      obtain ⟨rfl, -⟩ := yields_pure_iff.mp hentries
      exact ⟨fun _ _ hentry => (nomatch hentry), List.nodup_nil, fun _ hnode => (nomatch hnode)⟩
  | cons field rest ih =>
      rw [List.mapM_cons] at hentries
      obtain ⟨entry, c₁, hfirst, hentries⟩ := yields_bind_iff.mp hentries
      obtain ⟨others, c₂, hrest, hpure⟩ := yields_bind_iff.mp hentries
      obtain ⟨rfl, rfl⟩ := yields_pure_iff.mp hpure
      obtain ⟨node, c₃, hwire, hpure⟩ := yields_bind_iff.mp hfirst
      obtain ⟨rfl, rfl⟩ := yields_pure_iff.mp hpure
      obtain ⟨-, rfl, rfl⟩ := wire_yields_iff.mp hwire
      obtain ⟨hothers, hnodup, hafter⟩ := ih others hrest
      have hsize : (⟨c.nodes.push ⟨field.width, .wire (fieldName owner field) none⟩⟩ :
          Circuit).size = c.size + 1 := Array.size_push ..
      rw [hsize] at hafter
      have hle := (bundle_grows rest fun _ => wire_grows _ _).le_of_yields
        (bundle_yields_iff.mpr hrest : (wires owner rest).Yields _ ⟨others⟩ _)
      refine ⟨fun other node hentry => ?_, List.nodup_cons.mpr ⟨fun hmem => ?_, hnodup⟩,
        List.forall_mem_cons.mpr ⟨Nat.le_refl _, fun node hnode => ?_⟩⟩
      · rcases List.mem_cons.mp hentry with heq | hentry
        · cases heq
          exact (c.isWire_push _ _).mono hle
        · exact hothers other node hentry
      · exact absurd (hafter _ hmem) (Nat.not_succ_le_self _)
      · exact Nat.le_of_succ_le (hafter node hnode)

/-- Nodes are bound to fields of their widths. -/
theorem bind_yields {fields : List Field} {nodes : List NodeId} {b : Bundle}
    (h : (Build.bind fields nodes).Yields c b c') :
    b.fields = fields ∧ b.nodes = nodes ∧ b.Carried c := by
  obtain ⟨bound, c₁, hbound, hchecks⟩ := yields_bind_iff.mp h
  obtain ⟨hofNodes, rfl⟩ := ofExcept_yields_iff.mp hbound
  obtain ⟨_, c₂, hwidths, hpure⟩ := yields_bind_iff.mp hchecks
  obtain ⟨rfl, -⟩ := yields_pure_iff.mp hpure
  have hall := ((forM_yields_iff fun _ _ _ => matchWidth_yields_iff).mp hwidths).1
  unfold Bundle.ofNodes at hofNodes
  split at hofNodes
  · rename_i hlength
    cases hofNodes
    exact ⟨List.map_fst_zip (Nat.le_of_eq hlength), List.map_snd_zip (Nat.le_of_eq hlength.symm),
      fun field node hentry => hall (field, node) hentry⟩
  · cases hofNodes

end Build

end Interlock
