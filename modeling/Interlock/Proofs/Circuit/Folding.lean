/-
What a fold of arguments carries.

Every site masks its arguments by its run bit before they are folded in, and zero is neutral, so a
site that does not run leaves what was folded so far.  By induction on the sites, each field of the
fold carries the words of that field at the sites that run, combined by the operation: for or their
disjunction, and for addition their sum without carry.
-/
import Mathlib.Algebra.GroupWithZero.Nat
import Interlock.Blueprint.Assembly
import Interlock.Proofs.Circuit.Bundle
import Interlock.Proofs.Circuit.Transfer

namespace Interlock

theorem Bundle.nodeAt_eq {bundle : Bundle} {i : Nat} {node : NodeId}
    (h : bundle.nodes[i]? = some node) : bundle.nodeAt i = node := by
  rw [Bundle.nodeAt, List.getD_eq_getElem?_getD, h]
  rfl

namespace Build

/-! ### Constants and selections -/

theorem constant_node_ensures (value w : Nat) :
    (constant value w).Ensures fun s id =>
      s.circuit.nodes[id]? = some ⟨w, .constant (Word.truncate w value)⟩ :=
  bind_ensures (checkWidth_grows w).ensures fun _ =>
    (shared_ensures (by simp)).mono fun _ _ hnode _ => hnode

theorem mux_ensures (select ifTrue ifFalse : NodeId) :
    (mux select ifTrue ifFalse).Ensures fun s id => ∃ w, s.circuit.width ifTrue = .ok w ∧
      s.circuit.width ifFalse = .ok w ∧ s.circuit.width id = .ok w ∧
      s.word id = if s.bit select then s.word ifTrue else s.word ifFalse := by
  refine bind_ensures (width_grows select).ensures fun _ => ?_
  refine bind_ensures (matchWidths_grows _ _ _).ensures fun _ => ?_
  refine bind_ensures (width_ensures ifTrue) fun w => ?_
  refine bind_ensures (width_ensures ifFalse) fun w' => ?_
  refine bind_ensures (matchWidths_ensures _ _ _) fun _ => ?_
  refine (push_ensures (by simp)).mono fun s id hnode hmatch hfalse htrue _ _ => ?_
  subst hmatch
  refine ⟨w, htrue, hfalse, Circuit.width_eq_ok_iff.mpr ⟨_, hnode, rfl⟩, ?_⟩
  have hfits : (if s.bit select then s.word ifTrue else s.word ifFalse) < Word.count w := by
    split
    · exact Settled.word_lt htrue
    · exact Settled.word_lt hfalse
  rw [Settled.word_eq hnode]
  exact Word.truncate_of_lt hfits

end Build

/-! ### Operations that fold -/

namespace BinaryOp

/-- Words can be folded with the operation, starting from zero. -/
structure Folds (op : BinaryOp) : Prop where
  resultWidth : ∀ w, op.resultWidth w = w
  fits : ∀ w a b, a < Word.count w → b < Word.count w → op.apply w a b < Word.count w
  neutral : ∀ w a, a < Word.count w → op.apply w a 0 = a

theorem or_folds : Folds .or where
  resultWidth := fun _ => rfl
  fits := fun _ _ _ => Word.or_lt_count
  neutral := fun _ a _ => Nat.or_zero a

theorem add_folds : Folds .add where
  resultWidth := fun _ => rfl
  fits := fun w a b _ _ => Word.truncate_lt w (a + b)
  neutral := fun _ _ => Word.truncate_of_lt

theorem foldl_apply_or (w : Nat) (words : List Nat) :
    words.foldl (BinaryOp.or.apply w) 0 = words.foldr (· ||| ·) 0 := by
  rw [List.foldr_eq_foldl]
  rfl

/-- Dropping the carry at each step is dropping it in the end. -/
theorem foldl_apply_add (w : Nat) (words : List Nat) :
    words.foldl (BinaryOp.add.apply w) 0 = Word.truncate w words.sum := by
  suffices key : ∀ start, words.foldl (BinaryOp.add.apply w) (Word.truncate w start) =
      Word.truncate w (start + words.sum) by
    have hzero := key 0
    rwa [Word.truncate_of_lt (Word.count_pos w), Nat.zero_add] at hzero
  induction words with
  | nil => intro start; rfl
  | cons word rest ih =>
      intro start
      have hstep : BinaryOp.add.apply w (Word.truncate w start) word =
          Word.truncate w (start + word) := Nat.mod_add_mod start (Word.count w) word
      rw [List.foldl_cons, hstep, ih, List.sum_cons, Nat.add_assoc]

end BinaryOp

/-! ### One site -/

namespace Combination

variable {op : BinaryOp} {fields : List Field}

/-- One word of a site is folded in if the site runs. -/
theorem foldWord_ensures (hop : op.Folds) (run current argument : NodeId) :
    (do
      let idle ← Build.constant 0 (← Build.width argument)
      let gated ← Build.mux run argument idle
      Build.binary op current gated : Build NodeId).Ensures fun s node =>
        s.circuit.width node = s.circuit.width current ∧
          ∀ w, s.circuit.width current = .ok w → s.word node =
            if s.bit run then op.apply w (s.word current) (s.word argument)
            else s.word current := by
  refine Build.bind_ensures (Build.width_ensures argument) fun w => ?_
  refine Build.bind_ensures (Build.constant_ensures 0 w) fun idle => ?_
  refine Build.bind_ensures (Build.mux_ensures run argument idle) fun gated => ?_
  refine (Build.binary_ensures op current gated).mono fun s node hbinary hmux hidle _ => ?_
  obtain ⟨v, hcurrent, hgated, hnode⟩ := hbinary
  obtain ⟨-, -, -, -, hword⟩ := hmux
  rw [hop.resultWidth] at hnode
  refine ⟨hcurrent ▸ Circuit.width_eq_ok_iff.mpr ⟨_, hnode, rfl⟩, fun w' hw' => ?_⟩
  obtain rfl : v = w' := Except.ok.inj (hcurrent.symm.trans hw')
  have happly : s.word node = op.apply v (s.word current) (s.word gated) := by
    have hwidth : s.circuit.widthD current = v := by
      obtain ⟨other, hother, rfl⟩ := Circuit.width_eq_ok_iff.mp hcurrent
      simp [Circuit.widthD, hother]
    rw [Settled.word_eq hnode]
    unfold Circuit.nodeWord
    dsimp only
    rw [hwidth]
    exact Word.truncate_of_lt (hop.fits v _ _ (Settled.word_lt hcurrent) (Settled.word_lt hgated))
  have hzero : s.word idle = 0 := by
    rw [hidle]
    exact Word.truncate_of_lt (Word.count_pos w)
  rw [happly, hword, hzero]
  split
  · rfl
  · exact hop.neutral v _ (Settled.word_lt hcurrent)

/-! ### Bundles of known words -/

theorem exists_of_forall₂ {α β : Type} {R : α → β → Prop} {l : List α} {l' : List β}
    (h : List.Forall₂ R l l') {i : Nat} {a : α} (ha : l[i]? = some a) :
    ∃ b, l'[i]? = some b ∧ R a b := by
  obtain ⟨hi, rfl⟩ := List.getElem?_eq_some_iff.mp ha
  have hi' : i < l'.length := h.length_eq ▸ hi
  exact ⟨_, List.getElem?_eq_getElem hi', h.get hi hi'⟩

/-- The bundle has the fields, and at every position a node of the width of the field that carries
the word. -/
structure Holds (s : Settled) (fields : List Field) (word : Nat → Field → Nat) (bundle : Bundle) :
    Prop where
  fields_eq : bundle.fields = fields
  node : ∀ i field, fields[i]? = some field →
    s.circuit.width (bundle.nodeAt i) = .ok field.width ∧ s.word (bundle.nodeAt i) = word i field

theorem zeros_hold (fields : List Field) :
    (Build.zeros fields).Ensures fun s b => Holds s fields (fun _ _ => 0) b := by
  have hfield : ∀ field ∈ fields, (do return (field, ← Build.constant 0 field.width) :
      Build (Field × NodeId)).Ensures fun s entry => entry.1 = field ∧
        s.circuit.width entry.2 = .ok field.width ∧ s.word entry.2 = 0 := by
    intro field _
    refine Build.bind_ensures ((Build.constant_ensures 0 field.width).and
      (Build.constant_node_ensures 0 field.width)) fun node => ?_
    refine Build.pure_ensures fun s ⟨hzero, hnode⟩ => ⟨rfl, ?_, ?_⟩
    · exact Circuit.width_eq_ok_iff.mpr ⟨_, hnode, rfl⟩
    · rw [hzero]
      exact Word.truncate_of_lt (Word.count_pos _)
  refine Build.bind_ensures (Build.mapM_ensures hfield) fun entries => ?_
  refine Build.pure_ensures fun s hentries => ⟨?_, fun i field hi => ?_⟩
  · exact (map_eq_of_forall₂ hentries fun _ _ h => h.1.symm).symm.trans (List.map_id fields)
  · obtain ⟨entry, hentry, -, hnode⟩ := exists_of_forall₂ hentries hi
    have hsecond : (⟨entries⟩ : Bundle).nodes[i]? = some entry.2 := by
      rw [Bundle.nodes, List.getElem?_map, hentry]
      rfl
    rwa [Bundle.nodeAt_eq hsecond]

/-- A site that runs is folded in; one that does not changes nothing. -/
theorem foldSite_ensures (hop : op.Folds) (folded arguments : Bundle) (run : NodeId) :
    (foldSite op fields folded arguments run).Ensures fun s b =>
      ∀ word, Holds s fields word folded → Holds s fields (fun i field =>
        if s.bit run then op.apply field.width (word i field) (s.word (arguments.nodeAt i))
        else word i field) b := by
  refine Build.bind_ensures (Build.expectFields_ensures arguments fields) fun _ => ?_
  refine Build.bind_ensures (Build.mapM_ensures fun pair _ =>
    foldWord_ensures hop run pair.1 pair.2) fun nodes => ?_
  refine (Build.ofExcept_ensures _).mono fun s b hbound hnodes harguments word hfolded => ?_
  unfold Bundle.ofNodes at hbound
  split at hbound
  swap
  · cases hbound
  next hlength =>
    cases hbound
    refine ⟨List.map_fst_zip (Nat.le_of_eq hlength), fun i field hi => ?_⟩
    obtain ⟨current, hcurrent, -⟩ := Bundle.getElem?_nodes (hfolded.fields_eq ▸ hi)
    obtain ⟨argument, hargument, -⟩ := Bundle.getElem?_nodes (harguments ▸ hi)
    have hpair : (folded.nodes.zip arguments.nodes)[i]? = some (current, argument) :=
      List.getElem?_zip_eq_some.mpr ⟨hcurrent, hargument⟩
    obtain ⟨node, hnode, hwidth, hword⟩ := exists_of_forall₂ hnodes hpair
    have hbundle : (⟨fields.zip nodes⟩ : Bundle).nodes = nodes :=
      List.map_snd_zip (Nat.le_of_eq hlength.symm)
    obtain ⟨hwidth', hword'⟩ := hfolded.node i field hi
    rw [Bundle.nodeAt_eq hcurrent] at hwidth' hword'
    rw [Bundle.nodeAt_eq (hbundle ▸ hnode), Bundle.nodeAt_eq hargument, hwidth,
      hword _ hwidth', hword']
    exact ⟨hwidth', rfl⟩

end Combination

/-! ### All sites -/

namespace Valuation

/-- The words of a field at the sites that run, in the order of the sites. -/
def gathered (valuation : Valuation) (sites : List (Bundle × NodeId)) (i : Nat) : List Nat :=
  (sites.filter fun site => valuation.bit site.2).map fun site => valuation.word (site.1.nodeAt i)

theorem gathered_concat (valuation : Valuation) (sites : List (Bundle × NodeId))
    (site : Bundle × NodeId) (i : Nat) : valuation.gathered (sites ++ [site]) i =
      if valuation.bit site.2 then valuation.gathered sites i ++ [valuation.word (site.1.nodeAt i)]
      else valuation.gathered sites i := by
  unfold gathered
  rw [List.filter_append, List.map_append]
  by_cases hrun : valuation.bit site.2 = true
  · simp [hrun]
  · simp [hrun]

end Valuation

namespace Combination

variable {op : BinaryOp}

/-- **A fold carries what the running sites pass**, combined field by field. -/
theorem foldRunning_ensures (hop : op.Folds) (shape : Shape) (arguments : List Bundle)
    (runs : List NodeId) :
    (foldRunning op shape arguments runs).Ensures fun s b => Holds s shape.fields (fun i field =>
      (s.valuation.gathered (arguments.zip runs) i).foldl (op.apply field.width) 0) b := by
  refine Build.bind_ensures (zeros_hold shape.fields) fun zero => ?_
  refine (Build.foldlM_ensures (I := fun done s b => Holds s shape.fields (fun i field =>
    (s.valuation.gathered done i).foldl (op.apply field.width) 0) b) ?_ zero).mono
    fun s b hfold hzero => hfold hzero
  intro done site rest _ folded
  refine (foldSite_ensures hop folded site.1 site.2).mono fun s b hsite hdone => ?_
  obtain ⟨hfields, hnode⟩ := hsite _ hdone
  refine ⟨hfields, fun i field hi => ⟨(hnode i field hi).1, (hnode i field hi).2.trans ?_⟩⟩
  rw [Valuation.gathered_concat]
  change (if s.valuation.bit site.2 then _ else _) = _
  split
  · rw [List.foldl_concat]
    rfl
  · rfl

end Combination

namespace Blueprint.Combining

/-- What some words of a width combine to. -/
def total : Combining → Nat → List Nat → Nat
  | .or, _, words => words.foldr (· ||| ·) 0
  | .sum, width, words => words.sum % 2 ^ width

/-- The bundle has the fields of the shape, and every field carries what its words combine to. -/
structure Totals (combining : Combining) (shape : Shape) (valuation : Valuation)
    (words : Nat → List Nat) (bundle : Bundle) : Prop where
  fields_eq : bundle.fields = shape.fields
  word_eq : ∀ i field, shape.fields[i]? = some field →
    valuation.word (bundle.nodeAt i) = combining.total field.width (words i)

end Blueprint.Combining

namespace Assembly

open Blueprint

/-- **A combiner gives what the running sites pass**, combined field by field. -/
theorem combiner_ensures (combining : Combining) (shape : Shape) (arguments : List Bundle)
    (runs : List NodeId) :
    (combiner shape combining arguments runs).Ensures fun s b =>
      combining.Totals shape s.valuation (s.valuation.gathered (arguments.zip runs)) b := by
  cases combining with
  | or =>
      refine (Combination.foldRunning_ensures BinaryOp.or_folds shape arguments runs).mono
        fun s b hholds => ⟨hholds.fields_eq, fun i field hi => (hholds.node i field hi).2.trans ?_⟩
      exact BinaryOp.foldl_apply_or _ _
  | sum =>
      refine (Combination.foldRunning_ensures BinaryOp.add_folds shape arguments runs).mono
        fun s b hholds => ⟨hholds.fields_eq, fun i field hi => (hholds.node i field hi).2.trans ?_⟩
      have hvalid := shape.valid.1 field (List.mem_of_getElem? hi)
      rw [BinaryOp.foldl_apply_add, Word.truncate, Word.count_of_valid hvalid]
      rfl

/-- Bundles of the shape can be combined if there are bits that say which of them run. -/
theorem combiner_answers {c : Circuit} (combining : Combining) (shape : Shape)
    {arguments : List Bundle} {runs : List NodeId}
    (harguments : ∀ b ∈ arguments, b.fields = shape.fields ∧ b.Carried c)
    (hruns : ∀ run ∈ runs, c.width run = .ok 1) :
    ∃ b c', (combiner shape combining arguments runs).Yields c b c' := by
  have hlasts : Circuit.Lasts fun _ => True := ⟨fun _ _ _ => trivial, fun _ _ _ _ => trivial⟩
  -- Only the widths count here, so every node may be taken as given.
  have hsignal : ∀ {w id}, c.width id = .ok w → c.Signal Set.univ w id := fun hwidth =>
    ⟨hwidth, .given (Set.mem_univ _)⟩
  have harguments' : ∀ b ∈ arguments, b.fields = shape.fields ∧ b.Signals c Set.univ := fun b hb =>
    ⟨(harguments b hb).1, fun field node hentry => hsignal ((harguments b hb).2 field node hentry)⟩
  have hmakes : ∀ {op : BinaryOp}, (∀ w, op.resultWidth w = w) →
      ∃ b c', (Combination.foldRunning op shape arguments runs).Yields c b c' := by
    intro op hop
    obtain ⟨b, c', hyields, -⟩ := Build.foldRunning_makes hlasts trivial hop harguments'
      fun run hrun => hsignal (hruns run hrun)
    exact ⟨b, c', hyields⟩
  cases combining with
  | or => exact hmakes BinaryOp.or_folds.resultWidth
  | sum => exact hmakes BinaryOp.add_folds.resultWidth

end Assembly

end Interlock
