/-
When requests are answered.

For every request of the library: what has to hold of the circuit for the request to be answered,
and then the answer and the circuit afterwards.
-/
import Interlock.Proofs.Circuit.Built

namespace Interlock.Build

variable {α : Type} {c c' : Circuit} {id : NodeId}

/-! ### Checks -/

theorem width_yields_iff {w : Nat} :
    (width id).Yields c w c' ↔ c.width id = .ok w ∧ c' = c := by
  unfold Yields
  rw [run_width, Prod.mk.injEq, eq_comm (a := c)]

theorem matchWidths_yields_iff {op : String} {left right : Nat} {u : Unit} :
    (matchWidths op left right).Yields c u c' ↔ left = right ∧ c' = c := by
  unfold matchWidths
  split
  · rename_i heq
    exact ⟨fun h => ⟨heq, (yields_pure_iff.mp h).2⟩, fun h => yields_pure_iff.mpr ⟨rfl, h.2⟩⟩
  · rename_i hne
    exact ⟨fun h => absurd h not_yields_throw, fun h => absurd h.1 hne⟩

theorem checkWidth_yields_iff {w : Nat} {u : Unit} :
    (checkWidth w).Yields c u c' ↔ Word.ValidWidth w ∧ c' = c := by
  unfold checkWidth
  split
  · rename_i hvalid
    exact ⟨fun h => ⟨hvalid, (yields_pure_iff.mp h).2⟩, fun h => yields_pure_iff.mpr ⟨rfl, h.2⟩⟩
  · rename_i hvalid
    exact ⟨fun h => absurd h not_yields_throw, fun h => absurd h.1 hvalid⟩

/-! ### Operators -/

theorem push_yields_iff {node : Node} :
    (push node).Yields c id c' ↔ id = c.size ∧ c' = ⟨c.nodes.push node⟩ := by
  constructor
  · intro h
    cases h
    exact ⟨rfl, rfl⟩
  · rintro ⟨rfl, rfl⟩
    rfl

theorem unary_yields_iff {op : UnaryOp} {operand : NodeId} :
    (unary op operand).Yields c id c' ↔ ∃ w, c.width operand = .ok w ∧ id = c.size ∧
      c' = ⟨c.nodes.push ⟨op.resultWidth w, .unary op operand⟩⟩ := by
  simp only [unary, yields_bind_iff, width_yields_iff, push_yields_iff]
  constructor
  · rintro ⟨w, _, ⟨hw, rfl⟩, h⟩
    exact ⟨w, hw, h⟩
  · rintro ⟨w, hw, h⟩
    exact ⟨w, c, ⟨hw, rfl⟩, h⟩

theorem binary_yields_iff {op : BinaryOp} {left right : NodeId} :
    (binary op left right).Yields c id c' ↔ ∃ w, c.width left = .ok w ∧ c.width right = .ok w ∧
      id = c.size ∧ c' = ⟨c.nodes.push ⟨op.resultWidth w, .binary op left right⟩⟩ := by
  simp only [binary, yields_bind_iff, width_yields_iff, matchWidths_yields_iff, push_yields_iff]
  constructor
  · rintro ⟨w, _, ⟨hleft, rfl⟩, _, _, ⟨hright, rfl⟩, _, _, ⟨rfl, rfl⟩, h⟩
    exact ⟨w, hleft, hright, h⟩
  · rintro ⟨w, hleft, hright, h⟩
    exact ⟨w, c, ⟨hleft, rfl⟩, w, c, ⟨hright, rfl⟩, (), c, ⟨rfl, rfl⟩, h⟩

theorem mux_yields_iff {select ifTrue ifFalse : NodeId} :
    (mux select ifTrue ifFalse).Yields c id c' ↔ ∃ w, c.width select = .ok 1 ∧
      c.width ifTrue = .ok w ∧ c.width ifFalse = .ok w ∧ id = c.size ∧
        c' = ⟨c.nodes.push ⟨w, .mux select ifTrue ifFalse⟩⟩ := by
  simp only [mux, yields_bind_iff, width_yields_iff, matchWidths_yields_iff, push_yields_iff]
  constructor
  · rintro ⟨_, _, ⟨hselect, rfl⟩, _, _, ⟨rfl, rfl⟩, w, _, ⟨htrue, rfl⟩, _, _, ⟨hfalse, rfl⟩, _, _,
      ⟨rfl, rfl⟩, h⟩
    exact ⟨w, hselect, htrue, hfalse, h⟩
  · rintro ⟨w, hselect, htrue, hfalse, h⟩
    exact ⟨1, c, ⟨hselect, rfl⟩, (), c, ⟨rfl, rfl⟩, w, c, ⟨htrue, rfl⟩, w, c, ⟨hfalse, rfl⟩, (), c,
      ⟨rfl, rfl⟩, h⟩

theorem matchWidth_yields_iff {op : String} {w : Nat} {u : Unit} :
    (do matchWidths op w (← width id) : Build Unit).Yields c u c' ↔
      c.width id = .ok w ∧ c' = c := by
  simp only [yields_bind_iff, width_yields_iff, matchWidths_yields_iff]
  constructor
  · rintro ⟨_, _, ⟨hw, rfl⟩, rfl, rfl⟩
    exact ⟨hw, rfl⟩
  · rintro ⟨hw, rfl⟩
    exact ⟨w, c', ⟨hw, rfl⟩, rfl, rfl⟩

theorem forM_yields_iff {f : α → Build Unit} {P : α → Prop} {l : List α} {u : Unit}
    (hf : ∀ a u c', (f a).Yields c u c' ↔ P a ∧ c' = c) :
    (l.forM f).Yields c u c' ↔ (∀ a ∈ l, P a) ∧ c' = c := by
  induction l with
  | nil =>
      refine ⟨fun h => ⟨by simp, (yields_pure_iff.mp h).2⟩, fun h => ?_⟩
      exact yields_pure_iff.mpr ⟨rfl, h.2⟩
  | cons a rest ih =>
      rw [List.forall_mem_cons]
      show (f a >>= fun _ => rest.forM f).Yields c u c' ↔ _
      rw [yields_bind_iff]
      constructor
      · rintro ⟨u', _, hfirst, hrest⟩
        obtain ⟨ha, rfl⟩ := (hf a u' _).mp hfirst
        obtain ⟨hall, rfl⟩ := ih.mp hrest
        exact ⟨⟨ha, hall⟩, rfl⟩
      · rintro ⟨⟨ha, hall⟩, rfl⟩
        exact ⟨(), c', (hf a () c').mpr ⟨ha, rfl⟩, ih.mpr ⟨hall, rfl⟩⟩

theorem oneHot_yields_iff {selects values : List NodeId} :
    (oneHot selects values).Yields c id c' ↔ ∃ w, values ≠ [] ∧
      selects.length = values.length ∧ (∀ select ∈ selects, c.width select = .ok 1) ∧
      (∀ value ∈ values, c.width value = .ok w) ∧ id = c.size ∧
        c' = ⟨c.nodes.push ⟨w, .oneHot selects values⟩⟩ := by
  have hwidths : ∀ (op : String) (w : Nat) (ids : List NodeId) (c c' : Circuit) (u : Unit),
      (ids.forM fun id => (do matchWidths op w (← width id) : Build Unit)).Yields c u c' ↔
        (∀ id ∈ ids, c.width id = .ok w) ∧ c' = c :=
    fun op w ids c c' u => forM_yields_iff fun _ _ _ => matchWidth_yields_iff
  unfold oneHot
  by_cases hlength : selects.length = values.length
  swap
  · simp only [ne_eq, hlength, not_false_eq_true, if_true, yields_bind_iff, not_yields_throw,
      false_and, exists_false, and_false]
  simp only [ne_eq, hlength, not_true_eq_false, if_false]
  cases values with
  | nil => simp [not_yields_throw]
  | cons first rest =>
      simp only [yields_bind_iff, width_yields_iff, hwidths, push_yields_iff]
      constructor
      · rintro ⟨w, _, ⟨-, rfl⟩, _, _, ⟨hselects, rfl⟩, _, _, ⟨hvalues, rfl⟩, h⟩
        exact ⟨w, by simp, trivial, hselects, hvalues, h⟩
      · rintro ⟨w, -, -, hselects, hvalues, h⟩
        exact ⟨w, c, ⟨hvalues first (by simp), rfl⟩, (), c, ⟨hselects, rfl⟩, (), c, ⟨hvalues, rfl⟩,
          h⟩

/-! ### Leaves -/

theorem get_yields_iff {answer : Circuit} :
    (get : Build Circuit).Yields c answer c' ↔ answer = c ∧ c' = c := by
  constructor
  · intro h
    cases h
    exact ⟨rfl, rfl⟩
  · rintro ⟨rfl, rfl⟩
    rfl

theorem shared_yields_iff {node : Node} : (shared node).Yields c id c' ↔
    c.find? node = some id ∧ c' = c ∨
      c.find? node = none ∧ id = c.size ∧ c' = ⟨c.nodes.push node⟩ := by
  simp only [shared, yields_bind_iff, get_yields_iff]
  cases hfind : c.find? node with
  | none => simp [hfind, push_yields_iff]
  | some found => simp [hfind, yields_pure_iff, eq_comm]

theorem wire_yields_iff {name : String} {w : Nat} : (wire name w).Yields c id c' ↔
    Word.ValidWidth w ∧ id = c.size ∧ c' = ⟨c.nodes.push ⟨w, .wire name none⟩⟩ := by
  simp only [wire, yields_bind_iff, checkWidth_yields_iff, push_yields_iff]
  constructor
  · rintro ⟨_, _, ⟨hvalid, rfl⟩, h⟩
    exact ⟨hvalid, h⟩
  · rintro ⟨hvalid, h⟩
    exact ⟨(), c, ⟨hvalid, rfl⟩, h⟩

/-! ### Drivers -/

/-- An undriven wire is driven by a node of its width. -/
theorem drive_yields {target source : NodeId} {w : Nat} {name : String}
    (htarget : c.nodes[target]? = some ⟨w, .wire name none⟩) (hsource : c.width source = .ok w) :
    (drive target source).Yields c ()
      ⟨c.nodes.setIfInBounds target ⟨w, .wire name (some source)⟩⟩ := by
  have hwidth : c.width target = .ok w := Circuit.width_eq_ok_iff.mpr ⟨_, htarget, rfl⟩
  have hnode : c.node target = .ok ⟨w, .wire name none⟩ := by simp [Circuit.node, htarget]
  refine yields_bind_iff.mpr ⟨w, c, width_yields_iff.mpr ⟨hsource, rfl⟩, ?_⟩
  refine yields_bind_iff.mpr ⟨w, c, width_yields_iff.mpr ⟨hwidth, rfl⟩, ?_⟩
  refine yields_bind_iff.mpr ⟨(), c, matchWidths_yields_iff.mpr ⟨rfl, rfl⟩, ?_⟩
  refine yields_bind_iff.mpr ⟨c, c, rfl, ?_⟩
  rw [hnode]
  rfl

/-! ### Answers that are at hand -/

theorem ofExcept_yields_iff {r : Except Circuit.Fault α} {a : α} :
    (ofExcept r : Build α).Yields c a c' ↔ r = .ok a ∧ c' = c := by
  cases r with
  | error fault =>
      exact ⟨fun h => absurd h not_yields_throw, fun h => absurd h.1 (by simp)⟩
  | ok b =>
      rw [Except.ok.injEq, eq_comm (a := b)]
      exact yields_pure_iff

end Interlock.Build
