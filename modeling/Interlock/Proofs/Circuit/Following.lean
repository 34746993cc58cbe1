/-
Requests that are followed.

A request to a circuit is followed by a request to a circuit that holds a copy of it if, whenever
the first is answered, the second is answered as well, what the first comes to is copied into what
the second comes to, and the answers correspond.  Whatever is made of the requests of the library
is followed by the same with the copies of the nodes in place of the nodes, since nothing is asked
of a circuit that would tell a node from its copy.
-/
import Mathlib.Data.List.GetD
import Interlock.Proofs.Circuit.Answered
import Interlock.Proofs.Circuit.Copy

namespace Interlock.Build

variable {α β γ δ : Type} {k : Copy}

/-- Where the first request is answered for the part, so is the second one for the whole, and the
answers are related. -/
def Follows (k : Copy) (x : Build α) (x' : Build β) (P : Copy → α → β → Prop) : Prop :=
  ∀ a c, x.Yields k.part a c →
    ∃ k' b, k'.part = c ∧ x'.Yields k.whole b k'.whole ∧ k ≤ k' ∧ P k' a b

variable {P Q : Copy → α → β → Prop} {x : Build α} {x' : Build β}

/-! ### Composed requests -/

theorem Follows.mono (h : Follows k x x' P) (hPQ : ∀ k' a b, k ≤ k' → P k' a b → Q k' a b) :
    Follows k x x' Q := by
  intro a c hyields
  obtain ⟨k', b, hpart, hyields', hle, hP⟩ := h a c hyields
  exact ⟨k', b, hpart, hyields', hle, hPQ k' a b hle hP⟩

theorem pure_follows {a : α} {b : β} (h : P k a b) : Follows k (pure a) (pure b) P := by
  intro a' c hyields
  obtain ⟨rfl, rfl⟩ := yields_pure_iff.mp hyields
  exact ⟨k, b, rfl, yields_pure_iff.mpr ⟨rfl, rfl⟩, k.le_refl, h⟩

theorem throw_follows (fault : Circuit.Fault) (x' : Build β) :
    Follows k (throw fault : Build α) x' P :=
  fun _ _ hyields => absurd hyields not_yields_throw

theorem bind_follows {R : Copy → γ → δ → Prop} {f : α → Build γ} {f' : β → Build δ}
    (hx : Follows k x x' P)
    (hf : ∀ k' a b, k ≤ k' → P k' a b → Follows k' (f a) (f' b) R) :
    Follows k (x >>= f) (x' >>= f') R := by
  intro r c hyields
  obtain ⟨a, c₁, hfirst, hsecond⟩ := yields_bind_iff.mp hyields
  obtain ⟨k₁, b, rfl, hfirst', hle₁, hP⟩ := hx a c₁ hfirst
  obtain ⟨k₂, s, hpart, hsecond', hle₂, hR⟩ := hf k₁ a b hle₁ hP r c hsecond
  exact ⟨k₂, s, hpart, yields_bind_iff.mpr ⟨b, k₁.whole, hfirst', hsecond'⟩,
    Copy.le_trans hle₁ hle₂, hR⟩

theorem ofExcept_follows {r : Except Circuit.Fault α} {r' : Except Circuit.Fault β}
    (h : ∀ a, r = .ok a → ∃ b, r' = .ok b ∧ P k a b) :
    Follows k (ofExcept r) (ofExcept r') P := by
  cases r with
  | error fault => exact throw_follows fault _
  | ok a =>
      obtain ⟨b, rfl, hP⟩ := h a rfl
      exact pure_follows hP

/-- What each part says of its element is known of all elements. -/
theorem forM_follows {T : α → Prop} {f : α → Build Unit} {f' : β → Build Unit} {l : List α}
    {l' : List β} : ∀ {k : Copy}, List.Forall₂ (fun a b => ∀ k', k ≤ k' →
      Follows k' (f a) (f' b) fun _ _ _ => T a) l l' →
        Follows k (l.forM f) (l'.forM f') fun _ _ _ => ∀ a ∈ l, T a := by
  induction l generalizing l' with
  | nil =>
      intro k h
      cases h
      exact pure_follows (by simp)
  | cons a rest ih =>
      intro k h
      cases h with
      | cons ha hrest =>
          refine bind_follows (ha k k.le_refl) fun k' _ _ hle hT => ?_
          refine (ih (hrest.imp fun b b' hb k'' hle' => hb k'' (Copy.le_trans hle hle'))).mono ?_
          exact fun _ _ _ _ hall => List.forall_mem_cons.mpr ⟨hT, hall⟩

/-- The requests of two lists follow one another if they do one by one. -/
theorem forEach_follows {f : α → Build Unit} {f' : β → Build Unit} {l : List α} {l' : List β}
    (h : List.Forall₂ (fun a b => ∀ k', k ≤ k' → Follows k' (f a) (f' b) fun _ _ _ => True) l l') :
    Follows k (l.forM f) (l'.forM f') fun _ _ _ => True :=
  (forM_follows (T := fun _ => True) h).mono fun _ _ _ _ _ => trivial

/-- The answers correspond one by one; what is related stays related. -/
theorem mapM_follows {R : Copy → γ → δ → Prop} {f : α → Build γ} {f' : β → Build δ}
    (hmono : ∀ {k k' : Copy} {a b}, k ≤ k' → R k a b → R k' a b) {l : List α} {l' : List β} :
    ∀ {k : Copy}, List.Forall₂ (fun a b => ∀ k', k ≤ k' → Follows k' (f a) (f' b) R) l l' →
      Follows k (l.mapM f) (l'.mapM f') fun k' => List.Forall₂ (R k') := by
  induction l generalizing l' with
  | nil =>
      intro k h
      cases h
      exact pure_follows .nil
  | cons a rest ih =>
      intro k h
      cases h with
      | cons ha hrest =>
          rw [List.mapM_cons, List.mapM_cons]
          refine bind_follows (ha k k.le_refl) fun k' c d hle hcd => ?_
          refine bind_follows (ih (hrest.imp fun b b' hb k'' hle' =>
            hb k'' (Copy.le_trans hle hle'))) fun k'' cs ds hle' hall => ?_
          exact pure_follows (.cons (hmono hle' hcd) hall)

theorem foldlM_follows {R : Copy → γ → δ → Prop} {f : γ → α → Build γ} {f' : δ → β → Build δ}
    {l : List α} {l' : List β} :
    ∀ {k : Copy} {s t}, List.Forall₂ (fun a b => ∀ k', k ≤ k' → ∀ s t, R k' s t →
      Follows k' (f s a) (f' t b) R) l l' → R k s t →
        Follows k (l.foldlM f s) (l'.foldlM f' t) R := by
  induction l generalizing l' with
  | nil =>
      intro k s t h hst
      cases h
      exact pure_follows hst
  | cons a rest ih =>
      intro k s t h hst
      cases h with
      | cons ha hrest =>
          rw [List.foldlM_cons, List.foldlM_cons]
          refine bind_follows (ha k k.le_refl s t hst) fun k' s' t' hle hst' => ?_
          exact ih (hrest.imp fun b b' hb k'' hle' => hb k'' (Copy.le_trans hle hle')) hst'

/-! ### Requests that append a node -/

/-- If the same gate is appended to both, the second reading the copies, one is the copy of the
other. -/
theorem append_follows {x x' : Build NodeId} (hx : ∀ c, x.Keeps c) (hx' : ∀ c, x'.Keeps c)
    (h : ∀ id c, x.Yields k.part id c → ∃ node : Node,
      (∀ o ∈ node.gate.operands, o < k.part.size) ∧ id = k.part.size ∧
        c = ⟨k.part.nodes.push node⟩ ∧
        x'.Yields k.whole k.whole.size ⟨k.whole.nodes.push (node.moved k.place)⟩) :
    Follows k x x' Copy.Places := by
  intro id c hyields
  obtain ⟨node, hearlier, rfl, rfl, hyields'⟩ := h id c hyields
  have hpart := (hx k.part).wellFormed k.partWell hyields
  have hwhole := (hx' k.whole).wellFormed k.wholeWell hyields'
  have hextends := Copy.extends_push hpart hwhole hearlier
  exact ⟨k.append hextends, _, rfl, hyields', Copy.le_append hextends,
    Copy.append_places hextends⟩

theorem unary_follows (op : UnaryOp) {a b : NodeId} (h : k.Places a b) :
    Follows k (unary op a) (unary op b) Copy.Places := by
  refine append_follows (fun _ => unary_keeps op a) (fun _ => unary_keeps op b)
    fun id c hyields => ?_
  obtain ⟨w, hw, rfl, rfl⟩ := unary_yields_iff.mp hyields
  refine ⟨_, by simpa [Gate.operands] using h.lt, rfl, rfl, ?_⟩
  exact unary_yields_iff.mpr ⟨w, h.width_eq.trans hw, rfl, by rw [h.eq]; rfl⟩

theorem binary_follows (op : BinaryOp) {a b a' b' : NodeId} (h : k.Places a a')
    (h' : k.Places b b') : Follows k (binary op a b) (binary op a' b') Copy.Places := by
  refine append_follows (fun _ => binary_keeps op a b) (fun _ => binary_keeps op a' b')
    fun id c hyields => ?_
  obtain ⟨w, hleft, hright, rfl, rfl⟩ := binary_yields_iff.mp hyields
  refine ⟨_, by simpa [Gate.operands] using ⟨h.lt, h'.lt⟩, rfl, rfl, ?_⟩
  exact binary_yields_iff.mpr ⟨w, h.width_eq.trans hleft, h'.width_eq.trans hright, rfl,
    by rw [h.eq, h'.eq]; rfl⟩

theorem mux_follows {s t f s' t' f' : NodeId} (hs : k.Places s s') (ht : k.Places t t')
    (hf : k.Places f f') : Follows k (mux s t f) (mux s' t' f') Copy.Places := by
  refine append_follows (fun _ => mux_keeps s t f) (fun _ => mux_keeps s' t' f')
    fun id c hyields => ?_
  obtain ⟨w, hselect, htrue, hfalse, rfl, rfl⟩ := mux_yields_iff.mp hyields
  refine ⟨_, by simpa [Gate.operands] using ⟨hs.lt, ht.lt, hf.lt⟩, rfl, rfl, ?_⟩
  exact mux_yields_iff.mpr ⟨w, hs.width_eq.trans hselect, ht.width_eq.trans htrue,
    hf.width_eq.trans hfalse, rfl, by rw [hs.eq, ht.eq, hf.eq]; rfl⟩

theorem map_place_of_forall₂ {l l' : List NodeId} (h : List.Forall₂ k.Places l l') :
    l' = l.map k.place ∧ ∀ a ∈ l, a < k.part.size := by
  induction h with
  | nil => exact ⟨rfl, by simp⟩
  | cons hab _ ih =>
      refine ⟨by rw [List.map_cons, hab.eq, ih.1], List.forall_mem_cons.mpr ⟨hab.lt, ih.2⟩⟩

theorem oneHot_follows {selects values selects' values' : List NodeId}
    (hs : List.Forall₂ k.Places selects selects') (hv : List.Forall₂ k.Places values values') :
    Follows k (oneHot selects values) (oneHot selects' values') Copy.Places := by
  refine append_follows (fun _ => oneHot_keeps _ _) (fun _ => oneHot_keeps _ _)
    fun id c hyields => ?_
  obtain ⟨w, hne, hlength, hselects, hvalues, rfl, rfl⟩ := oneHot_yields_iff.mp hyields
  obtain ⟨rfl, hsl⟩ := map_place_of_forall₂ hs
  obtain ⟨rfl, hvl⟩ := map_place_of_forall₂ hv
  have hwidth : ∀ {l : List NodeId} {w : Nat}, (∀ a ∈ l, a < k.part.size) →
      (∀ a ∈ l, k.part.width a = .ok w) → ∀ b ∈ l.map k.place, k.whole.width b = .ok w := by
    intro l w hl hw b hb
    obtain ⟨a, ha, rfl⟩ := List.mem_map.mp hb
    exact (Copy.Places.width_eq ⟨hl a ha, rfl⟩).trans (hw a ha)
  refine ⟨_, fun o ho => ?_, rfl, rfl, ?_⟩
  · rcases List.mem_append.mp ho with ho | ho
    · exact hsl o ho
    · exact hvl o ho
  · exact oneHot_yields_iff.mpr ⟨w, by simpa using hne, by simpa using hlength, hwidth hsl hselects,
      hwidth hvl hvalues, rfl, rfl⟩

/-! ### Leaves -/

/-- A constant that only the whole has is there when the part gets it. -/
theorem shared_follows {w value : Nat} (hvalid : 1 ≤ w ∧ w ≤ 64) (hvalue : value < 2 ^ w) :
    Follows k (shared ⟨w, .constant value⟩) (shared ⟨w, .constant value⟩) Copy.Places := by
  intro id c hyields
  have hpart := (shared_keeps hvalid hvalue).wellFormed k.partWell hyields
  rcases shared_yields_iff.mp hyields with ⟨hfind, rfl⟩ | ⟨hfind, rfl, rfl⟩
  · rw [k.partWell.find?_eq_some_iff] at hfind
    refine ⟨k, k.place id, rfl, shared_yields_iff.mpr (.inl ⟨?_, rfl⟩), k.le_refl,
      ⟨(Array.getElem?_eq_some_iff.mp hfind).1, rfl⟩⟩
    exact k.wholeWell.find?_eq_some_iff.mpr (k.copied id _ hfind)
  · cases hfind' : k.whole.find? ⟨w, .constant value⟩ with
    | none =>
        have hyields' := shared_yields_iff.mpr (.inr ⟨hfind', rfl, rfl⟩)
        have hwhole := (shared_keeps hvalid hvalue).wellFormed k.wholeWell hyields'
        have hextends := Copy.extends_push hpart hwhole (by simp [Gate.operands])
        exact ⟨k.append hextends, _, rfl, hyields', Copy.le_append hextends,
          Copy.append_places hextends⟩
    | some id' =>
        have hextends := Copy.extends_constant hpart (Circuit.find?_eq_none_iff.mp hfind)
          (k.wholeWell.find?_eq_some_iff.mp hfind')
        exact ⟨k.append hextends, id', rfl, shared_yields_iff.mpr (.inl ⟨hfind', rfl⟩),
          Copy.le_append hextends, Copy.append_places hextends⟩

theorem high_follows : Follows k high high Copy.Places := shared_follows (by decide) (by decide)

theorem low_follows : Follows k low low Copy.Places := shared_follows (by decide) (by decide)

theorem checkWidth_follows (w : Nat) :
    Follows k (checkWidth w) (checkWidth w) fun _ _ _ => 1 ≤ w ∧ w ≤ 64 := by
  intro u c hyields
  obtain ⟨hvalid, rfl⟩ := checkWidth_yields_iff.mp hyields
  exact ⟨k, (), rfl, checkWidth_yields_iff.mpr ⟨hvalid, rfl⟩, k.le_refl, hvalid⟩

theorem constant_follows (value w : Nat) :
    Follows k (constant value w) (constant value w) Copy.Places := by
  refine bind_follows (checkWidth_follows w) fun k' _ _ _ hvalid => shared_follows hvalid ?_
  have hlt := Word.truncate_lt w value
  rwa [Word.count_of_valid hvalid] at hlt

theorem width_follows {a b : NodeId} (h : k.Places a b) :
    Follows k (width a) (width b) fun _ w w' => w' = w := by
  intro w c hyields
  obtain ⟨hw, rfl⟩ := width_yields_iff.mp hyields
  exact ⟨k, w, rfl, width_yields_iff.mpr ⟨h.width_eq.trans hw, rfl⟩, k.le_refl, rfl⟩

theorem matchWidths_follows (op : String) (left right : Nat) :
    Follows k (matchWidths op left right) (matchWidths op left right) fun _ _ _ => True := by
  intro u c hyields
  obtain ⟨heq, rfl⟩ := matchWidths_yields_iff.mp hyields
  exact ⟨k, (), rfl, matchWidths_yields_iff.mpr ⟨heq, rfl⟩, k.le_refl, trivial⟩

/-! ### Operators -/

theorem implies_follows {a b a' b' : NodeId} (h : k.Places a a') (h' : k.Places b b') :
    Follows k (implies a b) (implies a' b') Copy.Places :=
  bind_follows (unary_follows .not h) fun _ _ _ hle hn => binary_follows .or hn (h'.mono hle)

theorem chain_follows (op : BinaryOp) {l l' : List NodeId} (h : List.Forall₂ k.Places l l')
    {a a' : NodeId} (ha : k.Places a a') :
    Follows k (l.foldlM (binary op) a) (l'.foldlM (binary op) a') Copy.Places :=
  foldlM_follows
    (h.imp fun _ _ hb _ hle _ _ hs => binary_follows op hs (Copy.Places.mono hb hle)) ha

theorem andAll_follows {l l' : List NodeId} (h : List.Forall₂ k.Places l l') :
    Follows k (andAll l) (andAll l') Copy.Places := by
  cases h with
  | nil => exact high_follows
  | cons ha hrest => exact chain_follows .and hrest ha

theorem orAll_follows {l l' : List NodeId} (h : List.Forall₂ k.Places l l') :
    Follows k (orAll l) (orAll l') Copy.Places := by
  cases h with
  | nil => exact low_follows
  | cons ha hrest => exact chain_follows .or hrest ha

/-! ### Drivers -/

theorem get_follows : Follows k (get : Build Circuit) get fun k' c c' =>
    k' = k ∧ c = k.part ∧ c' = k.whole := by
  intro c c' hyields
  obtain ⟨rfl, rfl⟩ := get_yields_iff.mp hyields
  exact ⟨k, k.whole, rfl, get_yields_iff.mpr ⟨rfl, rfl⟩, k.le_refl, rfl, rfl, rfl⟩

/-- Whether a wire has its driver is the same of its copy. -/
theorem isDriven_follows {a b : NodeId} (h : k.Places a b) :
    Follows k (ofExcept (k.part.isDriven a)) (ofExcept (k.whole.isDriven b))
      fun _ driven driven' => driven' = driven := by
  refine ofExcept_follows fun driven hdriven => ?_
  obtain ⟨⟨w, gate⟩, hnode, hcopy⟩ := h.copied
  unfold Circuit.isDriven Circuit.node at *
  rw [hnode] at hdriven
  rw [hcopy]
  cases gate with
  | wire name driver =>
      cases hdriven
      refine ⟨_, rfl, ?_⟩
      cases driver <;> rfl
  | _ => cases hdriven

theorem drive_follows {a b a' b' : NodeId} (h : k.Places a a') (h' : k.Places b b') :
    Follows k (drive a b) (drive a' b') fun _ _ _ => True := by
  intro u c hyields
  rcases drive_cases a b k.part with ⟨fault, hrun⟩ | ⟨w, name, htarget, hsource, hrun⟩
  · rw [Yields, hrun] at hyields
    cases hyields
  · rw [Yields, hrun] at hyields
    cases hyields
    refine ⟨k.drive htarget hsource, (), rfl, ?_, Copy.le_drive htarget hsource, trivial⟩
    obtain rfl := h.eq
    obtain rfl := h'.eq
    exact drive_yields (k.copied a _ htarget) (h'.width_eq.trans hsource)

/-! ### Requests on bundles -/

theorem expectFields_follows {b b' : Bundle} (h : k.Carries b b') (fields : List Field) :
    Follows k (ofExcept (b.expectFields fields)) (ofExcept (b'.expectFields fields))
      fun _ (_ _ : Unit) => b.fields = fields := by
  refine ofExcept_follows fun u hu => ⟨u, ?_, ?_⟩
  · unfold Bundle.expectFields at *
    rwa [h.fields_eq]
  · unfold Bundle.expectFields at hu
    split at hu
    · assumption
    · cases hu

theorem forall₂_zip {ε ζ : Type} {R : α → β → Prop} {S : ε → ζ → Prop} {l : List α} {l' : List β}
    {m : List ε} {m' : List ζ} (h : List.Forall₂ R l l') (h' : List.Forall₂ S m m') :
    List.Forall₂ (fun pair pair' => R pair.1 pair'.1 ∧ S pair.2 pair'.2) (l.zip m) (l'.zip m') := by
  induction h generalizing m m' with
  | nil => exact .nil
  | cons ha _ ih =>
      cases h' with
      | nil => exact .nil
      | cons hb hrest => exact .cons ⟨ha, hb⟩ (ih hrest)

theorem driveAll_follows {target source target' source' : Bundle} (h : k.Carries target target')
    (h' : k.Carries source source') :
    Follows k (driveAll target source) (driveAll target' source') fun _ _ _ => True := by
  unfold driveAll
  rw [h.fields_eq]
  refine bind_follows (expectFields_follows h' target.fields) fun k' _ _ hle _ => ?_
  have hpairs := forall₂_zip (h.mono hle).nodes (h'.mono hle).nodes
  refine forEach_follows (hpairs.imp fun pair pair' hpair k'' hle' => ?_)
  exact drive_follows (hpair.1.mono hle') (hpair.2.mono hle')

theorem bundle_follows (fields : List Field) {request request' : Field → Build NodeId}
    (h : ∀ field k, Follows k (request field) (request' field) Copy.Places) :
    Follows k (bundle fields request) (bundle fields request') Copy.Carries := by
  refine bind_follows (mapM_follows (R := Copy.Binds) (fun hle h => h.mono hle)
    (List.forall₂_same.mpr fun field _ k' _ => ?_)) fun k' _ _ _ hall => pure_follows hall
  exact bind_follows (h field k') fun _ _ _ _ hplaces => pure_follows ⟨rfl, hplaces⟩

theorem zeros_follows (fields : List Field) :
    Follows k (zeros fields) (zeros fields) Copy.Carries :=
  bundle_follows fields fun field _ => constant_follows 0 field.width

theorem zip_carries (fields : List Field) {nodes nodes' : List NodeId}
    (h : List.Forall₂ k.Places nodes nodes') :
    k.Carries ⟨fields.zip nodes⟩ ⟨fields.zip nodes'⟩ := by
  unfold Copy.Carries
  induction h generalizing fields with
  | nil => simp
  | cons hab _ ih =>
      cases fields with
      | nil => simp
      | cons field fields => exact .cons ⟨rfl, hab⟩ (ih fields)

theorem ofNodes_follows (fields : List Field) {nodes nodes' : List NodeId}
    (h : List.Forall₂ k.Places nodes nodes') :
    Follows k (ofExcept (Bundle.ofNodes fields nodes)) (ofExcept (Bundle.ofNodes fields nodes'))
      Copy.Carries := by
  refine ofExcept_follows fun b hb => ?_
  unfold Bundle.ofNodes at *
  rw [← h.length_eq]
  split at hb
  · cases hb
    rename_i hlength
    exact ⟨_, if_pos hlength, zip_carries fields h⟩
  · cases hb

theorem nodeAt_places {b b' : Bundle} (h : k.Carries b b') {position : Nat}
    (hlt : position < b.fields.length) : k.Places (b.nodeAt position) (b'.nodeAt position) := by
  have hnodes := h.nodes
  have hlt' : position < b.nodes.length := by rwa [b.length_nodes]
  unfold Bundle.nodeAt
  rw [List.getD_eq_getElem _ 0 hlt', List.getD_eq_getElem _ 0 (hnodes.length_eq ▸ hlt')]
  exact hnodes.get hlt' (hnodes.length_eq ▸ hlt')

theorem select_follows (fields : List Field) {selects selects' : List NodeId}
    {bundles bundles' : List Bundle} (hs : List.Forall₂ k.Places selects selects')
    (hb : List.Forall₂ k.Carries bundles bundles') :
    Follows k (select fields selects bundles) (select fields selects' bundles') Copy.Carries := by
  unfold select
  have hempty : bundles'.isEmpty = bundles.isEmpty := by cases hb <;> rfl
  rw [hempty]
  split
  · exact zeros_follows fields
  · refine bind_follows (forM_follows (hb.imp fun b b' hb k' hle =>
      expectFields_follows (Copy.Carries.mono hb hle) fields)) fun k' _ _ hle hfields => ?_
    refine bind_follows (mapM_follows (R := Copy.Binds) (fun hle h => h.mono hle)
      (List.forall₂_same.mpr ?_)) fun _ _ _ _ hall => pure_follows hall
    rintro ⟨field, position⟩ hentry k'' hle'
    have hle'' := Copy.le_trans hle hle'
    have hlt : position < fields.length := by
      have hget := List.mem_zipIdx_iff_getElem?.mp hentry
      exact (List.getElem?_eq_some_iff.mp hget).1
    have hvalues : List.Forall₂ k''.Places (bundles.map (·.nodeAt position))
        (bundles'.map (·.nodeAt position)) := by
      rw [List.forall₂_map_left_iff, List.forall₂_map_right_iff]
      refine ((List.forall₂_and_left _ _).mpr ⟨hfields, hb⟩).imp fun b b' hboth => ?_
      exact nodeAt_places (Copy.Carries.mono hboth.2 hle'') (by rw [hboth.1]; exact hlt)
    refine bind_follows (oneHot_follows (hle''.leadsTo.forall₂_places hs) hvalues)
      fun _ _ _ _ hplaces => pure_follows ⟨rfl, hplaces⟩

end Interlock.Build
