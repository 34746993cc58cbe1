/-
Requests on bundles that are answered.

A bundle of signals has a node of the right width for every field.  Zeros can always be made of
fields that signals may have; bundles of the same fields can be selected from, folded and connected
to wires, and what comes of it rests on what the bundles and the selecting bits rest on.
-/
import Interlock.Combination
import Interlock.Proofs.Circuit.Completing
import Interlock.Proofs.Circuit.Wires

namespace Interlock

/-! ### Bundles of signals -/

/-- Every field has a node of its width that rests on the nodes given. -/
def Bundle.Signals (circuit : Circuit) (given : Set NodeId) (bundle : Bundle) : Prop :=
  ∀ field node, (field, node) ∈ bundle.entries → circuit.Signal given field.width node

namespace Bundle

variable {c c' : Circuit} {given : Set NodeId} {bundle : Bundle}

theorem Signals.mono (h : bundle.Signals c given) (hle : c ≤ c') : bundle.Signals c' given :=
  fun field node hentry => (h field node hentry).mono hle

theorem Signals.weaken (h : bundle.Signals c ∅) : bundle.Signals c given :=
  fun field node hentry => (h field node hentry).weaken

theorem getElem?_nodes {i : Nat} {field : Field} (hfield : bundle.fields[i]? = some field) :
    ∃ node, bundle.nodes[i]? = some node ∧ (field, node) ∈ bundle.entries := by
  rw [fields, List.getElem?_map, Option.map_eq_some_iff] at hfield
  obtain ⟨⟨_, node⟩, hentry, rfl⟩ := hfield
  exact ⟨node, by rw [nodes, List.getElem?_map, hentry]; rfl, List.mem_of_getElem? hentry⟩

theorem Signals.nodeAt (h : bundle.Signals c given) {i : Nat} {field : Field}
    (hfield : bundle.fields[i]? = some field) : c.Signal given field.width (bundle.nodeAt i) := by
  obtain ⟨node, hnode, hentry⟩ := getElem?_nodes hfield
  rw [Bundle.nodeAt, List.getD_eq_getElem?_getD, hnode]
  exact h field node hentry

/-- Nodes that stand at the same position of two bundles of the same fields. -/
theorem exists_of_mem_zip {other : Bundle} (hfields : bundle.fields = other.fields)
    {pair : NodeId × NodeId} (hpair : pair ∈ bundle.nodes.zip other.nodes) :
    ∃ field, (field, pair.1) ∈ bundle.entries ∧ (field, pair.2) ∈ other.entries := by
  obtain ⟨i, hi⟩ := List.mem_iff_getElem?.mp hpair
  obtain ⟨hleft, hright⟩ := List.getElem?_zip_eq_some.mp hi
  have hlt : i < bundle.fields.length := by
    rw [← length_nodes]
    exact (List.getElem?_eq_some_iff.mp hleft).1
  obtain ⟨field, hfield⟩ : ∃ field, bundle.fields[i]? = some field :=
    ⟨_, List.getElem?_eq_getElem hlt⟩
  obtain ⟨node, hnode, hentry⟩ := getElem?_nodes hfield
  have hfield' := hfield
  rw [hfields] at hfield'
  obtain ⟨node', hnode', hentry'⟩ := getElem?_nodes hfield'
  rw [hleft] at hnode
  rw [hright] at hnode'
  cases hnode
  cases hnode'
  exact ⟨_, hentry, hentry'⟩

/-- A bundle is put together of one signal for every field. -/
theorem signals_of_forall₂ {fields : List Field} {entries : List (Field × NodeId)}
    (h : List.Forall₂ (fun field entry => entry.1 = field ∧ c.Signal given field.width entry.2)
      fields entries) : (⟨entries⟩ : Bundle).fields = fields ∧ Signals c given ⟨entries⟩ := by
  induction h with
  | nil => exact ⟨rfl, nofun⟩
  | @cons field entry fields entries hentry _ ih =>
      obtain ⟨_, node⟩ := entry
      obtain ⟨rfl, hsignal⟩ := hentry
      refine ⟨congrArg (_ :: ·) ih.1, fun field' node' hmem => ?_⟩
      rcases List.mem_cons.mp hmem with heq | hmem
      · cases heq
        exact hsignal
      · exact ih.2 field' node' hmem

theorem expectFields_eq_ok {expected : List Field} (h : bundle.fields = expected) :
    bundle.expectFields expected = .ok () := if_pos h

end Bundle

/-- The request is answered with a bundle of the fields whose nodes rest on the nodes given. -/
def Build.MakesBundle (request : Build Bundle) (c : Circuit) (J : Circuit → Prop)
    (given : Set NodeId) (fields : List Field) : Prop :=
  request.Answers c fun c' bundle => J c' ∧ bundle.fields = fields ∧ bundle.Signals c' given

namespace Build

variable {c : Circuit}

section Gates

variable {J : Circuit → Prop} (hJ : Circuit.Lasts J) (hc : J c) {given : Set NodeId}
  {fields : List Field}
include hJ hc

/-! ### Zeros and selections -/

theorem zeros_makes (hfields : ∀ field ∈ fields, Word.ValidWidth field.width) :
    (zeros fields).MakesBundle c J given fields := by
  refine bind_answers (mapM_answers (J := J)
    (P := fun c' (field : Field) (entry : Field × NodeId) => entry.1 = field ∧
      c'.Signal given field.width entry.2) (fun _ _ _ _ hle h => ⟨h.1, h.2.mono hle⟩) ?_ hc)
    fun entries c' _ h => pure_answers ⟨h.1, Bundle.signals_of_forall₂ h.2⟩
  intro field hfield c' _ hc'
  exact bind_answers (constant_makes hJ hc' (hfields field hfield) 0) fun node c'' _ h =>
    pure_answers ⟨h.1, rfl, h.2⟩

/-- Bundles of the same fields can be selected from if there is a bit for each of them. -/
theorem select_makes {selects : List NodeId} {bundles : List Bundle} (hne : bundles ≠ [])
    (hlength : selects.length = bundles.length) (hselects : ∀ x ∈ selects, c.Signal given 1 x)
    (hbundles : ∀ b ∈ bundles, b.fields = fields ∧ b.Signals c given) :
    (select fields selects bundles).MakesBundle c J given fields := by
  have hsome : ¬ bundles.isEmpty = true := fun hempty => hne (List.isEmpty_iff.mp hempty)
  have hchecks : (bundles.forM fun b =>
      (ofExcept (b.expectFields fields) : Build Unit)).Yields c () c := by
    refine (forM_yields_iff (P := fun b => b.expectFields fields = .ok ())
      fun b u c' => ofExcept_yields_iff).mpr ⟨fun b hb => ?_, rfl⟩
    exact Bundle.expectFields_eq_ok (hbundles b hb).1
  unfold select
  rw [if_neg hsome]
  refine bind_answers_of_yields (a := ()) hchecks ?_
  refine bind_answers (mapM_answers (J := J)
    (P := fun c' (entry : Field × Nat) (answer : Field × NodeId) => answer.1 = entry.1 ∧
      c'.Signal given entry.1.width answer.2) (fun _ _ _ _ hle h => ⟨h.1, h.2.mono hle⟩) ?_ hc)
    fun entries c' _ h => pure_answers ⟨h.1, Bundle.signals_of_forall₂ ?_⟩
  · rintro ⟨field, i⟩ hentry c' hle hc'
    have hfield : fields[i]? = some field := List.mem_zipIdx_iff_getElem?.mp hentry
    refine bind_answers (oneHot_makes hJ hc' (by simpa using hne) (by simpa using hlength)
      (fun x hx => (hselects x hx).mono hle) fun x hx => ?_) fun node c'' _ h =>
        pure_answers ⟨h.1, rfl, h.2⟩
    obtain ⟨b, hb, rfl⟩ := List.mem_map.mp hx
    obtain ⟨hsame, hsignals⟩ := hbundles b hb
    exact (hsignals.nodeAt (hsame ▸ hfield)).mono hle
  · rw [← List.zipIdx_map_fst 0 fields, List.forall₂_map_left_iff]
    exact h.2

/-! ### Folds -/

/-- One more bundle is folded in. -/
theorem foldSite_makes {op : BinaryOp} (hop : ∀ w, op.resultWidth w = w) {folded arguments : Bundle}
    {run : NodeId} (hwidths : ∀ field ∈ fields, Word.ValidWidth field.width)
    (hfolded : folded.fields = fields ∧ folded.Signals c given)
    (harguments : arguments.fields = fields ∧ arguments.Signals c given)
    (hrun : c.Signal given 1 run) :
    (Combination.foldSite op fields folded arguments run).MakesBundle c J given fields := by
  have hcheck := Bundle.expectFields_eq_ok harguments.1
  refine bind_answers_of_yields (a := ()) (ofExcept_yields_iff.mpr ⟨hcheck, rfl⟩) ?_
  have hsame : folded.fields = arguments.fields := hfolded.1.trans harguments.1.symm
  refine bind_answers (mapM_answers (J := J)
    (P := fun c' (pair : NodeId × NodeId) (node : NodeId) =>
      ∃ w, c'.width pair.1 = .ok w ∧ c'.Signal given w node)
    (fun _ _ _ _ hle ⟨w, hw, h⟩ => ⟨w, Circuit.width_of_le hle hw, h.mono hle⟩) ?_ hc)
    fun nodes c' hle h => ?_
  · intro pair hpair c' hle hc'
    obtain ⟨field, hleft, hright⟩ := Bundle.exists_of_mem_zip hsame hpair
    have hcurrent := (hfolded.2 field _ hleft).mono hle
    have hargument := (harguments.2 field _ hright).mono hle
    have hvalid : Word.ValidWidth field.width :=
      hwidths field (hfolded.1 ▸ List.mem_map.mpr ⟨_, hleft, rfl⟩)
    refine bind_answers_of_yields (width_yields_iff.mpr ⟨hargument.width, rfl⟩) ?_
    refine bind_answers (@constant_makes c' J hJ hc' given _ hvalid 0) fun idle c₁ hle₁ h₁ => ?_
    refine bind_answers (mux_makes hJ h₁.1 ((hrun.mono hle).mono hle₁) (hargument.mono hle₁) h₁.2)
      fun gated c₂ hle₂ h₂ => ?_
    have hle₁₂ := Circuit.le_trans hle₁ hle₂
    refine (binary_makes hJ h₂.1 op (hcurrent.mono hle₁₂) h₂.2).mono fun c₃ node hle₃ h₃ => ?_
    rw [hop] at h₃
    exact ⟨h₃.1, field.width,
      Circuit.width_of_le (Circuit.le_trans hle₁₂ hle₃) hcurrent.width, h₃.2⟩
  · have hlength : fields.length = nodes.length := by
      rw [← h.2.length_eq, List.length_zip, Bundle.length_nodes, Bundle.length_nodes, ← hsame,
        Nat.min_self, hfolded.1]
    have hbound : Bundle.ofNodes fields nodes = .ok ⟨fields.zip nodes⟩ := if_pos hlength
    refine ⟨⟨fields.zip nodes⟩, c', ofExcept_yields_iff.mpr ⟨hbound, rfl⟩, c'.le_refl, h.1,
      List.map_fst_zip (Nat.le_of_eq hlength), fun field node hentry => ?_⟩
    obtain ⟨i, hi⟩ := List.mem_iff_getElem?.mp hentry
    obtain ⟨hfield, hnode⟩ := List.getElem?_zip_eq_some.mp hi
    obtain ⟨current, hcurrent, hmem⟩ := Bundle.getElem?_nodes (hfolded.1 ▸ hfield)
    obtain ⟨argument, hargument, -⟩ := Bundle.getElem?_nodes (harguments.1 ▸ hfield)
    have hpair : (folded.nodes.zip arguments.nodes)[i]? = some (current, argument) :=
      List.getElem?_zip_eq_some.mpr ⟨hcurrent, hargument⟩
    obtain ⟨hlt, hget⟩ := List.getElem?_eq_some_iff.mp hpair
    obtain ⟨hlt', hget'⟩ := List.getElem?_eq_some_iff.mp hnode
    obtain ⟨w, hw, hsignal⟩ := h.2.get hlt hlt'
    rw [List.get_eq_getElem, hget] at hw
    rw [List.get_eq_getElem, hget'] at hsignal
    obtain rfl : field.width = w := Except.ok.inj
      ((Circuit.width_of_le hle (hfolded.2 field current hmem).width).symm.trans hw)
    exact hsignal

theorem foldRunning_makes {op : BinaryOp} (hop : ∀ w, op.resultWidth w = w) {shape : Shape}
    {arguments : List Bundle} {runs : List NodeId}
    (harguments : ∀ b ∈ arguments, b.fields = shape.fields ∧ b.Signals c given)
    (hruns : ∀ x ∈ runs, c.Signal given 1 x) :
    (Combination.foldRunning op shape arguments runs).MakesBundle c J given shape.fields := by
  have hwidths : ∀ field ∈ shape.fields, Word.ValidWidth field.width := shape.valid.1
  refine bind_answers (@zeros_makes c J hJ hc given _ hwidths) fun zero c₁ hle₁ h₁ => ?_
  refine foldlM_answers (I := fun _ c' (folded : Bundle) => J c' ∧ folded.fields = shape.fields ∧
    folded.Signals c' given) (fun done pair rest hsplit folded c' hle h => ?_) h₁
  have hpair : pair ∈ arguments.zip runs := by rw [hsplit]; simp
  obtain ⟨hargument, hrun⟩ := List.of_mem_zip hpair
  obtain ⟨hfields, hsignals⟩ := harguments _ hargument
  have hle' := Circuit.le_trans hle₁ hle
  exact foldSite_makes hJ h.1 hop hwidths h.2 ⟨hfields, hsignals.mono hle'⟩
    ((hruns _ hrun).mono hle')

end Gates

/-! ### Drivers -/

section Drivers

variable {origin : Circuit} {given : Set NodeId} {targets : List NodeId} {rest : Set NodeId}

/-- The next target is driven by a signal of its width, on what that rests it rests itself. -/
theorem drive_answers {target source : NodeId} {w : Nat}
    (h : origin.Staged given (target :: targets) c) (htarget : c.width target = .ok w)
    (hsource : c.Signal rest w source) :
    (drive target source).Answers c fun c' _ =>
      origin.Staged given targets c' ∧ c'.Rests rest target := by
  obtain ⟨w', name, hnode⟩ := h.undriven target List.mem_cons_self
  obtain rfl : w' = w := by
    rw [Circuit.width_eq_ok_iff.mpr ⟨_, hnode, rfl⟩] at htarget
    exact Except.ok.inj htarget
  exact ⟨(), _, drive_yields hnode hsource.width, Circuit.le_drive hnode,
    h.drive hnode hsource.width, Circuit.rests_drive hnode hsource.rests⟩

/-- The next targets are the wires of a bundle, and are driven by another one of the same fields. -/
theorem driveAll_answers {target source : Bundle}
    (h : origin.Staged given (target.nodes ++ targets) c) (htarget : target.Carried c)
    (hfields : source.fields = target.fields) (hsource : source.Signals c rest) :
    (driveAll target source).Answers c fun c' _ =>
      origin.Staged given targets c' ∧ ∀ node ∈ target.nodes, c'.Rests rest node := by
  have hcheck := Bundle.expectFields_eq_ok hfields
  refine bind_answers_of_yields (a := ()) (ofExcept_yields_iff.mpr ⟨hcheck, rfl⟩) ?_
  have hlength : target.nodes.length = source.nodes.length := by
    rw [Bundle.length_nodes, Bundle.length_nodes, hfields]
  have hnodes : (target.nodes.zip source.nodes).map Prod.fst = target.nodes :=
    List.map_fst_zip (Nat.le_of_eq hlength)
  refine (forM_answers (I := fun pairs => origin.Staged given (pairs.map Prod.fst ++ targets))
    (P := fun c' pair => c'.Rests rest pair.1) (fun _ _ _ hle h => h.mono hle) ?_ ?_).mono
    fun c' _ _ h' => ⟨h'.1, fun node hnode => ?_⟩
  · intro pair hpair others c' hle hstaged
    obtain ⟨field, hleft, hright⟩ := Bundle.exists_of_mem_zip hfields.symm hpair
    exact drive_answers hstaged (Circuit.width_of_le hle (htarget field _ hleft))
      ((hsource field _ hright).mono hle)
  · rw [hnodes]
    exact h
  · rw [← hnodes] at hnode
    obtain ⟨pair, hpair, rfl⟩ := List.mem_map.mp hnode
    exact h'.2 pair hpair

end Drivers

end Build
end Interlock
