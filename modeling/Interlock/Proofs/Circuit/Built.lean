/-
Circuits that are built.

A circuit is built by requests alone, of which any may be refused, and a refused request that is
made of several steps leaves the nodes of its first steps behind.  Whatever is asked for, and with
whatever numbers, names and widths, the circuit stays well formed.

A request begins with checks, which leave the circuit as it is and say what is known of the nodes
that the request names; from that the node fits which the request appends.
-/
import Interlock.Proofs.Circuit.Tables

namespace Interlock

namespace Build

variable {α β : Type} {c : Circuit}

/-! ### What a request leaves well formed -/

/-- Whether it is answered or refused, the request leaves a well-formed circuit well formed. -/
def Keeps (request : Build α) (c : Circuit) : Prop :=
  c.WellFormed → (request.run.run c).2.WellFormed

theorem Keeps.wellFormed {request : Build α} (h : request.Keeps c) (hc : c.WellFormed) {answer : α}
    {c' : Circuit} (hyields : request.Yields c answer c') : c'.WellFormed := by
  have hwell := h hc
  rw [hyields] at hwell
  exact hwell

theorem pure_keeps (a : α) : (pure a : Build α).Keeps c := fun h => h

theorem throw_keeps (fault : Circuit.Fault) : (throw fault : Build α).Keeps c := fun h => h

/-- What the first part answers, and leaves, is known where the second part is made. -/
theorem bind_keeps {x : Build α} {f : α → Build β} (hx : x.Keeps c)
    (hf : ∀ a c', x.Yields c a c' → (f a).Keeps c') : (x >>= f).Keeps c := by
  intro h
  have hfirst := hx h
  rw [run_bind]
  rcases hrun : x.run.run c with ⟨fault | a, c'⟩
  · rw [hrun] at hfirst
    exact hfirst
  · rw [hrun] at hfirst
    exact hf a c' hrun hfirst

theorem forM_keeps {f : α → Build Unit} (hf : ∀ a c, (f a).Keeps c) (l : List α) :
    ∀ c, (l.forM f).Keeps c := by
  induction l with
  | nil => intro c; exact pure_keeps ()
  | cons a rest ih => intro c; exact bind_keeps (hf a c) fun _ c' _ => ih c'

theorem mapM_keeps {f : α → Build β} (hf : ∀ a c, (f a).Keeps c) (l : List α) :
    ∀ c, (l.mapM f).Keeps c := by
  induction l with
  | nil => intro c; exact pure_keeps []
  | cons a rest ih =>
      intro c
      rw [List.mapM_cons]
      exact bind_keeps (hf a c) fun b c' _ => bind_keeps (ih c') fun bs _ _ => pure_keeps (b :: bs)

theorem foldlM_keeps {f : β → α → Build β} (hf : ∀ b a c, (f b a).Keeps c) (l : List α) :
    ∀ b c, (l.foldlM f b).Keeps c := by
  induction l with
  | nil => intro b c; exact pure_keeps b
  | cons a rest ih =>
      intro b c
      rw [List.foldlM_cons]
      exact bind_keeps (hf b a c) fun b' c' _ => ih b' c'

/-! ### Checks -/

/-- The request leaves the circuit as it is, and is answered only if something is the case. -/
def Checks (request : Build α) (c : Circuit) (P : α → Prop) : Prop :=
  (request.run.run c).2 = c ∧ ∀ a c', request.Yields c a c' → P a

variable {P : α → Prop}

theorem Checks.keeps {request : Build α} (h : request.Checks c P) : request.Keeps c := by
  intro hc
  rw [h.1]
  exact hc

/-- A request that begins with a check is made to the same circuit. -/
theorem bind_checked {x : Build α} {f : α → Build β} (hx : x.Checks c P)
    (hf : ∀ a, P a → (f a).Keeps c) : (x >>= f).Keeps c := by
  refine bind_keeps hx.keeps fun a c' hyields => ?_
  have hsame := hx.1
  rw [hyields] at hsame
  subst hsame
  exact hf a (hx.2 a _ hyields)

theorem width_checks (id : NodeId) : (width id).Checks c fun w => c.width id = .ok w := by
  refine ⟨by rw [run_width], fun w c' hyields => ?_⟩
  rw [Yields, run_width] at hyields
  exact (Prod.mk.inj hyields).1

theorem get_checks : (get : Build Circuit).Checks c fun c' => c' = c :=
  ⟨rfl, fun _ _ hyields => (by cases hyields; rfl)⟩

theorem ofExcept_checks (answer : Except Circuit.Fault α) :
    (ofExcept answer : Build α).Checks c fun a => answer = .ok a := by
  cases answer with
  | ok a => exact ⟨rfl, fun _ _ hyields => by rw [(yields_pure_iff.mp hyields).1]⟩
  | error fault => exact ⟨rfl, fun _ _ hyields => absurd hyields not_yields_throw⟩

theorem checkWidth_checks (w : Nat) : (checkWidth w).Checks c fun _ => 1 ≤ w ∧ w ≤ 64 := by
  unfold checkWidth
  split
  · rename_i hvalid
    exact ⟨rfl, fun _ _ _ => hvalid⟩
  · exact ⟨rfl, fun _ _ hyields => absurd hyields not_yields_throw⟩

theorem matchWidths_checks (op : String) (left right : Nat) :
    (matchWidths op left right).Checks c fun _ => left = right := by
  unfold matchWidths
  split
  · rename_i heq
    exact ⟨rfl, fun _ _ _ => heq⟩
  · exact ⟨rfl, fun _ _ hyields => absurd hyields not_yields_throw⟩

/-- A check made of two is passed if both are. -/
theorem Checks.bind {x : Build α} {f : α → Build β} {Q : β → Prop} (hx : x.Checks c P)
    (hf : ∀ a, P a → (f a).Checks c Q) : (x >>= f).Checks c Q := by
  have hsame := hx.1
  constructor
  · rw [run_bind]
    rcases hrun : x.run.run c with ⟨fault | a, c'⟩
    · rw [hrun] at hsame
      exact hsame
    · rw [hrun] at hsame
      subst hsame
      exact (hf a (hx.2 a _ hrun)).1
  · intro b c'' hyields
    obtain ⟨a, c', hfirst, hsecond⟩ := yields_bind_iff.mp hyields
    rw [hfirst] at hsame
    subst hsame
    exact (hf a (hx.2 a _ hfirst)).2 b c'' hsecond

theorem forM_checks {f : α → Build Unit} {l : List α} (hf : ∀ a, (f a).Checks c fun _ => P a) :
    (l.forM f).Checks c fun _ => ∀ a ∈ l, P a := by
  induction l with
  | nil => exact ⟨rfl, fun _ _ _ a ha => absurd ha (by simp)⟩
  | cons a rest ih =>
      refine Checks.bind (hf a) fun _ ha => ⟨ih.1, fun _ c' hyields => ?_⟩
      exact List.forall_mem_cons.mpr ⟨ha, ih.2 () c' hyields⟩

theorem matchWidth_checks (op : String) (w : Nat) (id : NodeId) :
    (do matchWidths op w (← width id) : Build Unit).Checks c fun _ => c.width id = .ok w := by
  refine Checks.bind (width_checks id) fun w' hw => ?_
  refine ⟨(matchWidths_checks op w w').1, fun _ c' hyields => ?_⟩
  rw [(matchWidths_checks op w w').2 () c' hyields]
  exact hw

/-! ### Every request leaves a circuit well formed -/

theorem push_keeps {node : Node} (hvalid : 1 ≤ node.width ∧ node.width ≤ 64)
    (hfits : c.Fits node)
    (hconstant : ∀ value w, node = ⟨w, .constant value⟩ → ∀ id : NodeId, c.nodes[id]? ≠ some node)
    (hname : ∀ name w, node = ⟨w, .input name⟩ →
      ∀ (id : NodeId) (w' : Nat), c.nodes[id]? ≠ some ⟨w', .input name⟩) :
    (push node).Keeps c := fun h => h.push hvalid hfits hconstant hname

/-- A gate that computes from other nodes may be appended if it fits. -/
theorem push_gate_keeps {node : Node} (hvalid : 1 ≤ node.width ∧ node.width ≤ 64)
    (hfits : c.Fits node) (hconstant : ∀ value, node.gate ≠ .constant value)
    (hname : ∀ name, node.gate ≠ .input name) : (push node).Keeps c := by
  refine push_keeps hvalid hfits ?_ ?_
  · rintro value w rfl
    exact absurd rfl (hconstant value)
  · rintro name w rfl
    exact absurd rfl (hname name)

theorem valid_of_width (h : c.WellFormed) {id : NodeId} {w : Nat} (hw : c.width id = .ok w) :
    1 ≤ w ∧ w ≤ 64 := by
  obtain ⟨node, hnode, rfl⟩ := Circuit.width_eq_ok_iff.mp hw
  exact h.valid id node hnode

theorem input_keeps (name : String) (w : Nat) : (input name w).Keeps c := by
  refine bind_checked (checkWidth_checks w) fun _ hvalid => bind_checked get_checks fun c' hc => ?_
  subst hc
  dsimp only
  split
  · exact bind_keeps (throw_keeps _) fun _ _ hyields => absurd hyields not_yields_throw
  · rename_i hfree
    refine push_keeps hvalid trivial (by simp) fun other w' hnode => ?_
    obtain rfl : name = other := by simpa using (Node.mk.inj hnode).2
    exact Circuit.findInput?_eq_none_iff.mp (by simpa using hfree)

theorem shared_keeps {value w : Nat} (hvalid : 1 ≤ w ∧ w ≤ 64) (hvalue : value < 2 ^ w) :
    (shared ⟨w, .constant value⟩).Keeps c := by
  refine bind_checked get_checks fun c' hc => ?_
  subst hc
  split
  · exact pure_keeps _
  · rename_i hfresh
    refine push_keeps hvalid hvalue (fun _ _ _ => Circuit.find?_eq_none_iff.mp hfresh) ?_
    intro name w' hnode
    cases hnode

theorem constant_keeps (value w : Nat) : (constant value w).Keeps c := by
  refine bind_checked (checkWidth_checks w) fun _ hvalid => shared_keeps hvalid ?_
  have hlt := Word.truncate_lt w value
  rwa [Word.count_of_valid hvalid] at hlt

theorem high_keeps : high.Keeps c := shared_keeps (by decide) (by decide)

theorem low_keeps : low.Keeps c := shared_keeps (by decide) (by decide)

theorem wire_keeps (name : String) (w : Nat) : (wire name w).Keeps c :=
  bind_checked (checkWidth_checks w) fun _ hvalid =>
    push_gate_keeps hvalid trivial (by simp) (by simp)

theorem drive_keeps (target source : NodeId) : (drive target source).Keeps c := by
  intro h
  rcases drive_cases target source c with ⟨fault, hrun⟩ | ⟨w, name, htarget, hsource, hrun⟩
  · rw [hrun]
    exact h
  · rw [hrun]
    exact h.drive htarget hsource

theorem unary_keeps (op : UnaryOp) (operand : NodeId) : (unary op operand).Keeps c := by
  refine bind_checked (width_checks operand) fun w hw h => ?_
  have hvalid := valid_of_width h hw
  have hbit : 1 ≤ 1 ∧ 1 ≤ 64 := by decide
  cases op with
  | not => exact push_gate_keeps hvalid hw (by simp) (by simp) h
  | any => exact push_gate_keeps hbit ⟨rfl, w, hw⟩ (by simp) (by simp) h
  | all => exact push_gate_keeps hbit ⟨rfl, w, hw⟩ (by simp) (by simp) h

theorem binary_keeps (op : BinaryOp) (left right : NodeId) : (binary op left right).Keeps c := by
  refine bind_checked (width_checks left) fun lw hleft => ?_
  refine bind_checked (width_checks right) fun rw' hright => ?_
  refine bind_checked (matchWidths_checks _ _ _) fun _ hmatch h => ?_
  subst hmatch
  refine push_gate_keeps ?_ ⟨lw, hleft, hright, rfl⟩ (by simp) (by simp) h
  have hvalid := valid_of_width h hleft
  unfold BinaryOp.resultWidth
  dsimp only
  split
  · omega
  · exact hvalid

theorem implies_keeps (premise conclusion : NodeId) : (implies premise conclusion).Keeps c :=
  bind_keeps (unary_keeps .not premise) fun _ _ _ => binary_keeps .or _ conclusion

theorem mux_keeps (select ifTrue ifFalse : NodeId) : (mux select ifTrue ifFalse).Keeps c := by
  refine bind_checked (width_checks select) fun sw hselect => ?_
  refine bind_checked (matchWidths_checks _ _ _) fun _ hone => ?_
  refine bind_checked (width_checks ifTrue) fun tw htrue => ?_
  refine bind_checked (width_checks ifFalse) fun fw hfalse => ?_
  refine bind_checked (matchWidths_checks _ _ _) fun _ hmatch h => ?_
  subst hone hmatch
  exact push_gate_keeps (valid_of_width h htrue) ⟨hselect, htrue, hfalse⟩ (by simp) (by simp) h

theorem andAll_keeps (operands : List NodeId) : (andAll operands).Keeps c := by
  cases operands with
  | nil => exact high_keeps
  | cons first rest => exact foldlM_keeps (fun l r _ => binary_keeps .and l r) rest first c

theorem orAll_keeps (operands : List NodeId) : (orAll operands).Keeps c := by
  cases operands with
  | nil => exact low_keeps
  | cons first rest => exact foldlM_keeps (fun l r _ => binary_keeps .or l r) rest first c

theorem oneHot_keeps (selects values : List NodeId) : (oneHot selects values).Keeps c := by
  unfold oneHot
  by_cases hlength : selects.length = values.length
  swap
  · simp only [ne_eq, hlength, not_false_eq_true, if_true]
    exact bind_keeps (throw_keeps _) fun _ _ hyields => absurd hyields not_yields_throw
  simp only [ne_eq, hlength, not_true_eq_false, if_false]
  cases values with
  | nil => exact throw_keeps _
  | cons first rest =>
      refine bind_checked (width_checks first) fun common hfirst => ?_
      refine bind_checked (forM_checks fun s => matchWidth_checks _ 1 s) fun _ hselects => ?_
      refine bind_checked (forM_checks fun v => matchWidth_checks _ common v) fun _ hvalues h => ?_
      exact push_gate_keeps (valid_of_width h hfirst) ⟨by simp, hlength, hselects, hvalues⟩
        (by simp) (by simp) h

theorem bundle_keeps (fields : List Field) {request : Field → Build NodeId}
    (h : ∀ field c, (request field).Keeps c) : (bundle fields request).Keeps c := by
  refine bind_keeps (mapM_keeps (fun field c => ?_) fields c) fun _ _ _ => pure_keeps _
  exact bind_keeps (h field c) fun _ _ _ => pure_keeps _

theorem bind_fields_keeps (fields : List Field) (nodes : List NodeId) :
    (bind fields nodes).Keeps c := by
  refine bind_checked (ofExcept_checks _) fun bound _ => ?_
  refine bind_checked (forM_checks fun entry => matchWidth_checks _ _ entry.2) fun _ _ => ?_
  exact pure_keeps bound

theorem driveAll_keeps (target source : Bundle) : (driveAll target source).Keeps c := by
  have hdrive : ∀ (pair : NodeId × NodeId) (c : Circuit), (drive pair.1 pair.2).Keeps c :=
    fun pair c => drive_keeps pair.1 pair.2
  exact bind_checked (ofExcept_checks (source.expectFields target.fields)) fun _ _ =>
    forM_keeps hdrive _ c

theorem select_keeps (fields : List Field) (selects : List NodeId) (bundles : List Bundle) :
    (select fields selects bundles).Keeps c := by
  unfold select
  split
  · exact bundle_keeps fields fun field _ => constant_keeps 0 field.width
  · have hfields : (bundles.forM fun b =>
        (ofExcept (b.expectFields fields) : Build Unit)).Checks c fun _ =>
          ∀ b ∈ bundles, b.expectFields fields = .ok () :=
      forM_checks fun b => ofExcept_checks (b.expectFields fields)
    refine bind_checked hfields fun _ _ => ?_
    refine bind_keeps (mapM_keeps (fun entry c => ?_) fields.zipIdx c) fun _ _ _ => pure_keeps _
    exact bind_keeps (oneHot_keeps _ _) fun _ _ _ => pure_keeps _

end Build

/-! ### Circuits that are built -/

namespace Circuit

/-- One request, answered or refused. -/
inductive Step : Circuit → Circuit → Prop
  | input (c : Circuit) (name : String) (w : Nat) : Step c ((Build.input name w).run.run c).2
  | constant (c : Circuit) (value w : Nat) : Step c ((Build.constant value w).run.run c).2
  | high (c : Circuit) : Step c (Build.high.run.run c).2
  | low (c : Circuit) : Step c (Build.low.run.run c).2
  | wire (c : Circuit) (name : String) (w : Nat) : Step c ((Build.wire name w).run.run c).2
  | drive (c : Circuit) (target source : NodeId) :
      Step c ((Build.drive target source).run.run c).2
  | unary (c : Circuit) (op : UnaryOp) (operand : NodeId) :
      Step c ((Build.unary op operand).run.run c).2
  | binary (c : Circuit) (op : BinaryOp) (left right : NodeId) :
      Step c ((Build.binary op left right).run.run c).2
  | implies (c : Circuit) (premise conclusion : NodeId) :
      Step c ((Build.implies premise conclusion).run.run c).2
  | mux (c : Circuit) (select ifTrue ifFalse : NodeId) :
      Step c ((Build.mux select ifTrue ifFalse).run.run c).2
  | andAll (c : Circuit) (operands : List NodeId) : Step c ((Build.andAll operands).run.run c).2
  | orAll (c : Circuit) (operands : List NodeId) : Step c ((Build.orAll operands).run.run c).2
  | oneHot (c : Circuit) (selects values : List NodeId) :
      Step c ((Build.oneHot selects values).run.run c).2
  | wires (c : Circuit) (owner : String) (fields : List Field) :
      Step c ((Build.wires owner fields).run.run c).2
  | inputs (c : Circuit) (owner : String) (fields : List Field) :
      Step c ((Build.inputs owner fields).run.run c).2
  | zeros (c : Circuit) (fields : List Field) : Step c ((Build.zeros fields).run.run c).2
  | bind (c : Circuit) (fields : List Field) (nodes : List NodeId) :
      Step c ((Build.bind fields nodes).run.run c).2
  | driveAll (c : Circuit) (target source : Bundle) :
      Step c ((Build.driveAll target source).run.run c).2
  | select (c : Circuit) (fields : List Field) (selects : List NodeId) (bundles : List Bundle) :
      Step c ((Build.select fields selects bundles).run.run c).2

/-- Any number of requests, one after the other. -/
inductive Steps : Circuit → Circuit → Prop
  | refl (c : Circuit) : Steps c c
  | step {c c' c'' : Circuit} : Steps c c' → Step c' c'' → Steps c c''

/-- A circuit that can be built. -/
def Built (c : Circuit) : Prop := Steps empty c

variable {c c' c'' : Circuit}

/-- Every request leaves a well-formed circuit well formed. -/
theorem Step.wellFormed (h : Step c c') (hc : c.WellFormed) : c'.WellFormed := by
  cases h with
  | input => exact Build.input_keeps _ _ hc
  | constant => exact Build.constant_keeps _ _ hc
  | high => exact Build.high_keeps hc
  | low => exact Build.low_keeps hc
  | wire => exact Build.wire_keeps _ _ hc
  | drive => exact Build.drive_keeps _ _ hc
  | unary => exact Build.unary_keeps _ _ hc
  | binary => exact Build.binary_keeps _ _ _ hc
  | implies => exact Build.implies_keeps _ _ hc
  | mux => exact Build.mux_keeps _ _ _ hc
  | andAll => exact Build.andAll_keeps _ hc
  | orAll => exact Build.orAll_keeps _ hc
  | oneHot => exact Build.oneHot_keeps _ _ hc
  | wires => exact Build.bundle_keeps _ (fun _ _ => Build.wire_keeps _ _) hc
  | inputs => exact Build.bundle_keeps _ (fun _ _ => Build.input_keeps _ _) hc
  | zeros => exact Build.bundle_keeps _ (fun _ _ => Build.constant_keeps _ _) hc
  | bind => exact Build.bind_fields_keeps _ _ hc
  | driveAll => exact Build.driveAll_keeps _ _ hc
  | select => exact Build.select_keeps _ _ _ hc

/-- A request changes no node, but for giving an undriven wire its driver. -/
theorem Step.le (h : Step c c') : c ≤ c' := by
  cases h with
  | input => exact Build.input_grows _ _ c
  | constant => exact Build.constant_grows _ _ c
  | high => exact Build.high_grows c
  | low => exact Build.low_grows c
  | wire => exact Build.wire_grows _ _ c
  | drive => exact Build.drive_grows _ _ c
  | unary => exact Build.unary_grows _ _ c
  | binary => exact Build.binary_grows _ _ _ c
  | implies => exact Build.implies_grows _ _ c
  | mux => exact Build.mux_grows _ _ _ c
  | andAll => exact Build.andAll_grows _ c
  | orAll => exact Build.orAll_grows _ c
  | oneHot => exact Build.oneHot_grows _ _ c
  | wires => exact Build.wires_grows _ _ c
  | inputs => exact Build.inputs_grows _ _ c
  | zeros => exact Build.zeros_grows _ c
  | bind => exact Build.bind_fields_grows _ _ c
  | driveAll => exact Build.driveAll_grows _ _ c
  | select => exact Build.select_grows _ _ _ c

theorem Steps.wellFormed (h : Steps c c') (hc : c.WellFormed) : c'.WellFormed := by
  induction h with
  | refl => exact hc
  | step _ hstep ih => exact hstep.wellFormed ih

theorem Steps.trans (h : Steps c c') (h' : Steps c' c'') : Steps c c'' := by
  induction h' with
  | refl => exact h
  | step _ hstep ih => exact .step ih hstep

/-- Nor do many requests. -/
theorem Steps.le (h : Steps c c') : c ≤ c' := by
  induction h with
  | refl => exact le_refl _
  | step _ hstep ih => exact le_trans ih hstep.le

/-- Every circuit that is built is well formed. -/
theorem Built.wellFormed (h : Built c) : c.WellFormed := Steps.wellFormed h empty_wellFormed

/-- **Building a circuit keeps it well formed**: every node has a width that signals have, reads
what was there before it and is as wide as what it reads asks; constants and input names are there
once; the inputs on record are the input nodes, by name and in order; tables of inputs and constants
that are filled as nodes are appended have what a search finds; and whatever is requested next, no
node changes but for an undriven wire that gets its driver. -/
theorem built_invariant (h : Built c) :
    c.WellFormed ∧
      (∀ name id, c.findInput? name = some id ↔ ∃ w, c.nodes[id]? = some ⟨w, .input name⟩) ∧
      (∀ port, port ∈ c.inputs ↔ c.nodes[port.node]? = some ⟨port.width, .input port.name⟩) ∧
      (c.inputs.map Port.node).Pairwise (· < ·) ∧
      c.Tabled ∧
      ∀ c', Step c c' → ∀ (id : NodeId) (node : Node), c.nodes[id]? = some node →
        ∃ node', c'.nodes[id]? = some node' ∧ (node' = node ∨
          ∃ w name source,
            node = ⟨w, .wire name none⟩ ∧ node' = ⟨w, .wire name (some source)⟩) := by
  refine ⟨h.wellFormed, fun name id => h.wellFormed.findInput?_eq_some_iff,
    fun port => mem_inputs, c.inputs_ascending, h.wellFormed.tabled,
    fun c' hstep id node hnode => ?_⟩
  obtain ⟨node', hnode', hbecomes⟩ := hstep.le id node hnode
  refine ⟨node', hnode', ?_⟩
  cases hbecomes with
  | same => exact .inl rfl
  | driven w name source => exact .inr ⟨w, name, source, rfl, rfl⟩

/-- A wire that an inverter of an input drives, and what is left of a request for two more
inputs, the second of which was refused. -/
def invertedInput : Circuit :=
  ⟨#[⟨1, .wire "out" (some 2)⟩, ⟨1, .input "in"⟩, ⟨1, .unary .not 1⟩, ⟨8, .input "x.a"⟩]⟩

theorem invertedInput_built : Built invertedInput := by
  have hsteps := Steps.step (.step (.step (.step (.step (.refl empty) (.wire _ "out" 1))
    (.input _ "in" 1)) (.unary _ .not 1)) (.drive _ 0 2)) (.inputs _ "x" [⟨"a", 8⟩, ⟨"b", 65⟩])
  refine (congrArg (Steps empty) ?_).mpr hsteps
  decide +kernel

theorem invertedInput_invariant : invertedInput.Built ∧ invertedInput.WellFormed ∧
    ∀ c', Step invertedInput c' → c'.nodes[0]? = some ⟨1, .wire "out" (some 2)⟩ := by
  obtain ⟨hwell, -, -, -, -, hstep⟩ := built_invariant invertedInput_built
  refine ⟨invertedInput_built, hwell, fun c' h => ?_⟩
  obtain ⟨node', hnode', rfl | ⟨w, name, source, hwire, -⟩⟩ := hstep c' h 0 _ rfl
  · exact hnode'
  · cases hwire

end Circuit
end Interlock
