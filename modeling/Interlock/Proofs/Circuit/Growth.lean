/-
A circuit only grows.

A request may append nodes, and the one thing it may do to a node that is there already is to
give an undriven wire its driver.  `c ≤ c'` says that much of two circuits.  A request is said to
grow a circuit if it keeps to this whether it is answered or refused; every request of the library
does, and so does whatever is composed of such requests, which is all that is known of the
validators and combiners that a design brings with it.

What was true of a node when it was made is thereby still true of it in the finished circuit,
so that a construction can be described by what it says about the finished circuit alone.
-/
import Mathlib.Data.List.Forall2
import Interlock.Circuit.Record

namespace Interlock

/-- What may become of a node while its circuit grows. -/
inductive Node.Becomes : Node → Node → Prop
  | same (node : Node) : Becomes node node
  | driven (width : Nat) (name : String) (source : NodeId) :
      Becomes ⟨width, .wire name none⟩ ⟨width, .wire name (some source)⟩

namespace Node.Becomes

theorem trans {a b c : Node} (hab : a.Becomes b) (hbc : b.Becomes c) : a.Becomes c := by
  cases hab with
  | same => exact hbc
  | driven width name source =>
      cases hbc with
      | same => exact .driven width name source

theorem width_eq {a b : Node} (h : a.Becomes b) : b.width = a.width := by
  cases h <;> rfl

/-- Only an undriven wire changes. -/
theorem eq_of_settled {a b : Node} (h : a.Becomes b) (hsettled : ∀ name, a.gate ≠ .wire name none) :
    b = a := by
  cases h with
  | same => rfl
  | driven width name source => exact absurd rfl (hsettled name)

end Node.Becomes

namespace Circuit

/-- Every node of the first circuit is one of the second, up to drivers of wires. -/
def GrowsTo (c c' : Circuit) : Prop :=
  ∀ (id : NodeId) (node : Node), c.nodes[id]? = some node →
    ∃ node', c'.nodes[id]? = some node' ∧ node.Becomes node'

instance : LE Circuit := ⟨GrowsTo⟩

variable {c c' c'' : Circuit}

theorem le_refl (c : Circuit) : c ≤ c := fun _ node h => ⟨node, h, .same node⟩

theorem le_trans (h : c ≤ c') (h' : c' ≤ c'') : c ≤ c'' := by
  intro id node hnode
  obtain ⟨node', hnode', hbecomes⟩ := h id node hnode
  obtain ⟨node'', hnode'', hbecomes'⟩ := h' id node' hnode'
  exact ⟨node'', hnode'', hbecomes.trans hbecomes'⟩

/-- A node that is not an undriven wire stays as it is. -/
theorem node_of_le (h : c ≤ c') {id : NodeId} {node : Node} (hnode : c.nodes[id]? = some node)
    (hsettled : ∀ name, node.gate ≠ .wire name none) : c'.nodes[id]? = some node := by
  obtain ⟨node', hnode', hbecomes⟩ := h id node hnode
  rw [hnode', hbecomes.eq_of_settled hsettled]

theorem width_eq_ok_iff {id : NodeId} {w : Nat} :
    c.width id = .ok w ↔ ∃ node, c.nodes[id]? = some node ∧ node.width = w := by
  unfold width node
  cases c.nodes[id]? with
  | none => simp [Functor.map, Except.map]
  | some node => simp [Functor.map, Except.map]

/-- A width that is known does not change. -/
theorem width_of_le (h : c ≤ c') {id : NodeId} {w : Nat} (hw : c.width id = .ok w) :
    c'.width id = .ok w := by
  obtain ⟨node, hnode, hwidth⟩ := width_eq_ok_iff.mp hw
  obtain ⟨node', hnode', hbecomes⟩ := h id node hnode
  exact width_eq_ok_iff.mpr ⟨node', hnode', by rw [hbecomes.width_eq, hwidth]⟩

theorem size_le_of_le (h : c ≤ c') : c.size ≤ c'.size := by
  by_contra hlt
  have hid : c'.size < c.size := by omega
  obtain ⟨node, hnode, -⟩ := h c'.size _ (Array.getElem?_eq_getElem hid)
  exact absurd (Array.getElem?_eq_some_iff.mp hnode).1 (Nat.lt_irrefl _)

theorem le_push (c : Circuit) (node : Node) : c ≤ ⟨c.nodes.push node⟩ := by
  intro id old hold
  refine ⟨old, ?_, .same old⟩
  obtain ⟨hlt, -⟩ := Array.getElem?_eq_some_iff.mp hold
  rw [Array.getElem?_push_lt hlt, ← hold, Array.getElem?_eq_getElem hlt]

theorem le_drive {target source : NodeId} {width : Nat} {name : String}
    (h : c.nodes[target]? = some ⟨width, .wire name none⟩) :
    c ≤ ⟨c.nodes.setIfInBounds target ⟨width, .wire name (some source)⟩⟩ := by
  intro id node hnode
  by_cases hid : target = id
  · subst hid
    rw [h] at hnode
    cases hnode
    obtain ⟨hlt, -⟩ := Array.getElem?_eq_some_iff.mp h
    exact ⟨_, by simp [hlt], .driven width name source⟩
  · exact ⟨node, by simpa [Array.getElem?_setIfInBounds_ne hid] using hnode, .same node⟩

end Circuit

/-- A composed request runs its second part where its first part leaves off. -/
theorem run_bind {ε σ α β : Type} (x : ExceptT ε (StateM σ) α) (f : α → ExceptT ε (StateM σ) β)
    (s : σ) : (x >>= f).run.run s = match x.run.run s with
      | (.ok a, s') => (f a).run.run s'
      | (.error fault, s') => (.error fault, s') := by
  show StateT.run (ExceptT.run (x >>= f)) s = _
  rw [ExceptT.run_bind, StateT.run_bind]
  rcases StateT.run (ExceptT.run x) s with ⟨a | a, s'⟩ <;> rfl

/-- Whether it is answered or refused, a composed request leaves the state where its parts do. -/
theorem run_bind_trans {ε σ α β : Type} {T : σ → σ → Prop}
    (htrans : ∀ {s s' s''}, T s s' → T s' s'' → T s s'') {x : ExceptT ε (StateM σ) α}
    {f : α → ExceptT ε (StateM σ) β} (hx : ∀ s, T s (x.run.run s).2)
    (hf : ∀ a s, T s ((f a).run.run s).2) (s : σ) : T s ((x >>= f).run.run s).2 := by
  have hfirst := hx s
  rw [run_bind]
  rcases hrun : x.run.run s with ⟨fault | a, s'⟩
  · rw [hrun] at hfirst
    exact hfirst
  · rw [hrun] at hfirst
    exact htrans hfirst (hf a s')

namespace Build

variable {α β : Type}

/-- The request is answered, and this is the circuit afterwards. -/
def Yields (request : Build α) (c : Circuit) (answer : α) (c' : Circuit) : Prop :=
  request.run.run c = (.ok answer, c')

/-- Whether it is answered or refused, the request leaves what is there. -/
def Grows (request : Build α) : Prop := ∀ c : Circuit, c ≤ (request.run.run c).2

theorem Grows.le_of_yields {request : Build α} (h : request.Grows) {c c' : Circuit} {answer : α}
    (hyields : request.Yields c answer c') : c ≤ c' := by
  have hle := h c
  rw [hyields] at hle
  exact hle

/-! ### Composed requests -/

/-- A composed request is answered if its parts are, one after the other. -/
theorem yields_bind_iff {x : Build α} {f : α → Build β} {c c'' : Circuit} {b : β} :
    (x >>= f).Yields c b c'' ↔ ∃ a c', x.Yields c a c' ∧ (f a).Yields c' b c'' := by
  unfold Yields
  rw [run_bind]
  rcases x.run.run c with ⟨fault | a, c'⟩
  · constructor
    · intro h
      cases h
    · rintro ⟨a, c₁, h, -⟩
      cases h
  · constructor
    · intro h
      exact ⟨a, c', rfl, h⟩
    · rintro ⟨a', c₁, h, h'⟩
      cases h
      exact h'

theorem yields_pure_iff {a b : α} {c c' : Circuit} :
    (pure a : Build α).Yields c b c' ↔ b = a ∧ c' = c := by
  constructor
  · intro h
    cases h
    exact ⟨rfl, rfl⟩
  · rintro ⟨rfl, rfl⟩
    rfl

theorem not_yields_throw {fault : Circuit.Fault} {c c' : Circuit} {a : α} :
    ¬ (throw fault : Build α).Yields c a c' := by
  intro h
  cases h

/-- One answer is given for every element, each to its own request. -/
theorem mapM_yields {f : α → Build β} {l : List α} :
    ∀ {c c' : Circuit} {answers : List β}, (l.mapM f).Yields c answers c' →
      List.Forall₂ (fun a b => ∃ c₁ c₂, (f a).Yields c₁ b c₂) l answers := by
  induction l with
  | nil =>
      intro c c' answers h
      obtain ⟨rfl, -⟩ := yields_pure_iff.mp h
      exact .nil
  | cons a rest ih =>
      intro c c' answers h
      rw [List.mapM_cons] at h
      obtain ⟨b, c₁, hfirst, h⟩ := yields_bind_iff.mp h
      obtain ⟨bs, c₂, hrest, h⟩ := yields_bind_iff.mp h
      obtain ⟨rfl, -⟩ := yields_pure_iff.mp h
      exact .cons ⟨c, c₁, hfirst⟩ (ih hrest)

/-! ### Composed requests grow a circuit if their parts do -/

theorem pure_grows (a : α) : (pure a : Build α).Grows := fun c => c.le_refl

theorem throw_grows (fault : Circuit.Fault) : (throw fault : Build α).Grows :=
  fun c => c.le_refl

theorem get_grows : (get : Build Circuit).Grows := fun c => c.le_refl

theorem ofExcept_grows (answer : Except Circuit.Fault α) : (ofExcept answer : Build α).Grows := by
  cases answer with
  | ok a => exact pure_grows a
  | error fault => exact throw_grows fault

theorem bind_grows {x : Build α} {f : α → Build β} (hx : x.Grows) (hf : ∀ a, (f a).Grows) :
    (x >>= f).Grows :=
  run_bind_trans (T := fun c c' => c ≤ c') Circuit.le_trans hx hf

/-- Refusing under a condition changes nothing. -/
theorem refuse_or_grows {p : Prop} [Decidable p] {fault : Circuit.Fault} {f : Unit → Build α}
    (hf : (f ()).Grows) : (if p then throw fault >>= f else f ()).Grows := by
  split
  · exact fun c => c.le_refl
  · exact hf

theorem foldlM_grows {f : β → α → Build β} (hf : ∀ b a, (f b a).Grows) (l : List α) :
    ∀ b, (l.foldlM f b).Grows := by
  induction l with
  | nil => intro b; exact pure_grows b
  | cons a rest ih =>
      intro b
      rw [List.foldlM_cons]
      exact bind_grows (hf b a) ih

theorem forM_grows {f : α → Build Unit} (hf : ∀ a, (f a).Grows) (l : List α) :
    (l.forM f).Grows := by
  induction l with
  | nil => exact pure_grows ()
  | cons a rest ih =>
      exact bind_grows (hf a) fun _ => ih

theorem mapM_grows {f : α → Build β} (hf : ∀ a, (f a).Grows) (l : List α) :
    (l.mapM f).Grows := by
  induction l with
  | nil => exact pure_grows []
  | cons a rest ih =>
      rw [List.mapM_cons]
      exact bind_grows (hf a) fun b => bind_grows ih fun bs => pure_grows (b :: bs)

/-! ### Every request grows a circuit -/

theorem push_grows (node : Node) : (push node).Grows := fun c => c.le_push node

theorem width_grows (id : NodeId) : (width id).Grows :=
  bind_grows get_grows fun c => ofExcept_grows (c.width id)

theorem checkWidth_grows (w : Nat) : (checkWidth w).Grows := by
  unfold checkWidth
  split
  · exact pure_grows ()
  · exact throw_grows _

theorem matchWidths_grows (op : String) (left right : Nat) :
    (matchWidths op left right).Grows := by
  unfold matchWidths
  split
  · exact pure_grows ()
  · exact throw_grows _

theorem input_grows (name : String) (w : Nat) : (input name w).Grows := by
  refine bind_grows (checkWidth_grows w) fun _ => bind_grows get_grows fun c => ?_
  exact refuse_or_grows (push_grows _)

theorem shared_grows (node : Node) : (shared node).Grows := by
  refine bind_grows get_grows fun c => ?_
  split
  · exact pure_grows _
  · exact push_grows node

theorem shared_yields {node : Node} {c c' : Circuit} {id : NodeId}
    (h : (shared node).Yields c id c') : c'.nodes[id]? = some node := by
  obtain ⟨c₀, c₁, hget, hrest⟩ := yields_bind_iff.mp h
  cases hget
  cases hfind : c.find? node with
  | none =>
      rw [hfind] at hrest
      cases hrest
      simp [Circuit.size]
  | some id' =>
      rw [hfind] at hrest
      obtain ⟨rfl, rfl⟩ := yields_pure_iff.mp hrest
      obtain ⟨hid, hnode, -⟩ := Array.findIdx?_eq_some_iff_getElem.mp hfind
      rw [Array.getElem?_eq_getElem hid]
      exact congrArg some (by simpa using hnode)

theorem constant_grows (value w : Nat) : (constant value w).Grows :=
  bind_grows (checkWidth_grows w) fun _ => shared_grows _

theorem high_grows : high.Grows := shared_grows _

theorem low_grows : low.Grows := shared_grows _

theorem wire_grows (name : String) (w : Nat) : (wire name w).Grows :=
  bind_grows (checkWidth_grows w) fun _ => push_grows _

theorem unary_grows (op : UnaryOp) (operand : NodeId) : (unary op operand).Grows :=
  bind_grows (width_grows operand) fun _ => push_grows _

theorem binary_grows (op : BinaryOp) (left right : NodeId) : (binary op left right).Grows :=
  bind_grows (width_grows left) fun _ => bind_grows (width_grows right) fun _ =>
    bind_grows (matchWidths_grows _ _ _) fun _ => push_grows _

theorem implies_grows (premise conclusion : NodeId) : (implies premise conclusion).Grows :=
  bind_grows (unary_grows .not premise) fun _ => binary_grows .or _ conclusion

theorem mux_grows (select ifTrue ifFalse : NodeId) : (mux select ifTrue ifFalse).Grows :=
  bind_grows (width_grows select) fun _ => bind_grows (matchWidths_grows _ _ _) fun _ =>
    bind_grows (width_grows ifTrue) fun _ => bind_grows (width_grows ifFalse) fun _ =>
      bind_grows (matchWidths_grows _ _ _) fun _ => push_grows _

theorem run_width (id : NodeId) (c : Circuit) : (width id).run.run c = (c.width id, c) := by
  show (get >>= fun c' : Circuit => (ofExcept (c'.width id) : Build Nat)).run.run c = _
  rw [run_bind]
  show (ofExcept (c.width id) : Build Nat).run.run c = _
  cases c.width id <;> rfl

/-- Everything that driving a wire can do: it is refused and changes nothing, or the wire was
undriven and as wide as its driver. -/
theorem drive_cases (target source : NodeId) (c : Circuit) :
    (∃ fault, (drive target source).run.run c = (.error fault, c)) ∨
      ∃ w name, c.nodes[target]? = some ⟨w, .wire name none⟩ ∧ c.width source = .ok w ∧
        (drive target source).run.run c =
          (.ok (), ⟨c.nodes.setIfInBounds target ⟨w, .wire name (some source)⟩⟩) := by
  unfold drive
  rw [run_bind, run_width]
  rcases hsource : c.width source with fault | sw
  · exact .inl ⟨fault, rfl⟩
  dsimp only
  rw [run_bind, run_width]
  rcases htarget : c.width target with fault | tw
  · exact .inl ⟨fault, rfl⟩
  dsimp only
  by_cases hw : tw = sw
  · subst hw
    obtain ⟨node, hnode, hwidth⟩ := Circuit.width_eq_ok_iff.mp htarget
    obtain ⟨w, gate⟩ := node
    subst hwidth
    have hlook : c.node target = .ok ⟨w, gate⟩ := by simp [Circuit.node, hnode]
    have hmatch : matchWidths "drive" w w = pure () := if_pos rfl
    rw [hmatch, pure_bind, run_bind]
    rw [show (get : Build Circuit).run.run c = (.ok c, c) from rfl]
    simp only [hlook]
    cases gate with
    | wire name driver =>
        cases driver with
        | none => exact .inr ⟨w, name, hnode, rfl, rfl⟩
        | some driver => exact .inl ⟨.alreadyDriven name, rfl⟩
    | _ => exact .inl ⟨.notAWire target, rfl⟩
  · refine .inl ⟨.widthMismatch "drive" tw sw, ?_⟩
    rw [run_bind]
    simp only [matchWidths, if_neg hw]
    rfl

theorem drive_grows (target source : NodeId) : (drive target source).Grows := by
  intro c
  rcases drive_cases target source c with ⟨fault, hrun⟩ | ⟨w, name, htarget, -, hrun⟩
  · rw [hrun]
    exact c.le_refl
  · rw [hrun]
    exact Circuit.le_drive htarget

theorem andAll_grows (operands : List NodeId) : (andAll operands).Grows := by
  cases operands with
  | nil => exact high_grows
  | cons first rest => exact foldlM_grows (fun l r => binary_grows .and l r) rest first

theorem orAll_grows (operands : List NodeId) : (orAll operands).Grows := by
  cases operands with
  | nil => exact low_grows
  | cons first rest => exact foldlM_grows (fun l r => binary_grows .or l r) rest first

theorem matchWidth_grows (op : String) (w : Nat) (id : NodeId) :
    (do matchWidths op w (← width id) : Build Unit).Grows :=
  bind_grows (width_grows id) fun _ => matchWidths_grows _ _ _

theorem oneHot_grows (selects values : List NodeId) : (oneHot selects values).Grows := by
  refine refuse_or_grows ?_
  cases values with
  | nil => exact throw_grows _
  | cons first rest =>
      refine bind_grows (width_grows first) fun common => ?_
      refine bind_grows (forM_grows (fun _ => matchWidth_grows _ _ _) selects) fun _ => ?_
      refine bind_grows (forM_grows (fun _ => matchWidth_grows _ _ _) (first :: rest)) fun _ => ?_
      exact push_grows _

/-! ### Requests on bundles -/

theorem bundle_grows (fields : List Field) {request : Field → Build NodeId}
    (h : ∀ field, (request field).Grows) : (bundle fields request).Grows :=
  bind_grows (mapM_grows (fun field => bind_grows (h field) fun _ => pure_grows _) fields)
    fun _ => pure_grows _

theorem bundle_yields {fields : List Field} {request : Field → Build NodeId} {c c' : Circuit}
    {answer : Bundle} (h : (bundle fields request).Yields c answer c') :
    answer.fields = fields := by
  obtain ⟨entries, c₁, hmap, hpure⟩ := yields_bind_iff.mp h
  obtain ⟨rfl, -⟩ := yields_pure_iff.mp hpure
  have hentries := mapM_yields hmap
  clear hmap hpure h
  unfold Bundle.fields
  induction hentries with
  | nil => rfl
  | cons hentry _ ih =>
      obtain ⟨c₁, c₂, hentry⟩ := hentry
      obtain ⟨node, c₃, -, hentry⟩ := yields_bind_iff.mp hentry
      obtain ⟨rfl, -⟩ := yields_pure_iff.mp hentry
      rw [List.map_cons, ih]

theorem wires_grows (owner : String) (fields : List Field) : (wires owner fields).Grows :=
  bundle_grows fields fun _ => wire_grows _ _

theorem inputs_grows (owner : String) (fields : List Field) : (inputs owner fields).Grows :=
  bundle_grows fields fun _ => input_grows _ _

theorem zeros_grows (fields : List Field) : (zeros fields).Grows :=
  bundle_grows fields fun _ => constant_grows _ _

theorem bind_fields_grows (fields : List Field) (nodes : List NodeId) :
    (bind fields nodes).Grows :=
  bind_grows (ofExcept_grows _) fun bound =>
    bind_grows (forM_grows (fun _ => matchWidth_grows _ _ _) bound.entries) fun _ => pure_grows _

theorem driveAll_grows (target source : Bundle) : (driveAll target source).Grows :=
  bind_grows (ofExcept_grows _) fun _ => forM_grows (fun _ => drive_grows _ _) _

theorem select_grows (fields : List Field) (selects : List NodeId) (bundles : List Bundle) :
    (select fields selects bundles).Grows := by
  unfold select
  split
  · exact zeros_grows fields
  · refine bind_grows (forM_grows (fun _ => ofExcept_grows _) bundles) fun _ => ?_
    refine bind_grows (mapM_grows (fun _ => ?_) _) fun _ => pure_grows _
    exact bind_grows (oneHot_grows _ _) fun _ => pure_grows _

end Build
end Interlock
