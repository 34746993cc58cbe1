/-
Requests that are answered.

`request.Answers c P` says that the request, made to this circuit, is not refused, and that `P` holds
of the circuit that it leaves and of the answer.  The rules for composed requests follow the steps
of a construction; what was known of a node before a step is known of it after, since the circuit
has only grown.

What a circuit keeps throughout, such as to be well formed, is a parameter here: all that a request
asks of it is that it outlasts one more gate or constant.
-/
import Mathlib.Data.List.Forall2
import Interlock.Proofs.Circuit.Answered
import Interlock.Proofs.Circuit.Resting

namespace Interlock

/-! ### What a circuit keeps -/

/-- The gate makes its word of the words of other nodes. -/
def Gate.Computes : Gate → Prop
  | unary _ _ => True
  | binary _ _ _ => True
  | mux _ _ _ => True
  | oneHot _ _ => True
  | _ => False

namespace Circuit

variable {c : Circuit} {node : Node}

/-- The property outlasts a gate that is appended, and a constant. -/
structure Lasts (J : Circuit → Prop) : Prop where
  gate : ∀ {c : Circuit} {node : Node}, J c → c.Fits node → node.gate.Computes →
    J ⟨c.nodes.push node⟩
  constant : ∀ {c : Circuit} {w value : Nat}, J c → Word.ValidWidth w → value < 2 ^ w →
    c.find? ⟨w, .constant value⟩ = none → J ⟨c.nodes.push ⟨w, .constant value⟩⟩

/-- A gate that fits has the width of a node that is there, or is a bit. -/
theorem WellFormed.valid_of_fits (h : c.WellFormed) (hfits : c.Fits node)
    (hgate : node.gate.Computes) : 1 ≤ node.width ∧ node.width ≤ 64 := by
  have hwidth : ∀ {id : NodeId} {w : Nat}, c.width id = .ok w → 1 ≤ w ∧ w ≤ 64 :=
    fun hw => Build.valid_of_width h hw
  have hbit : 1 ≤ 1 ∧ 1 ≤ 64 := by decide
  obtain ⟨width, gate⟩ := node
  cases gate with
  | input name => exact hgate.elim
  | constant value => exact hgate.elim
  | wire name driver => exact hgate.elim
  | unary op operand =>
      cases op with
      | not => exact hwidth hfits
      | any => exact hfits.1 ▸ hbit
      | all => exact hfits.1 ▸ hbit
  | binary op left right =>
      obtain ⟨w, hleft, -, hw⟩ := hfits
      dsimp only at hw
      rw [hw]
      split
      · exact hbit
      · exact hwidth hleft
  | mux select ifTrue ifFalse => exact hwidth hfits.2.1
  | oneHot selects values =>
      obtain ⟨hne, -, -, hvalues⟩ := hfits
      obtain ⟨value, rest, rfl⟩ := List.exists_cons_of_ne_nil hne
      exact hwidth (hvalues value List.mem_cons_self)

/-- The circuit has grown from its origin, all its nodes rest on the nodes given, and the targets
are different wires that are still to be driven. -/
structure Staged (origin : Circuit) (given : Set NodeId) (targets : List NodeId) (c : Circuit) :
    Prop where
  grown : origin ≤ c
  wellFormed : c.WellFormed
  rests : ∀ id < c.size, c.Rests given id
  distinct : targets.Nodup
  undriven : ∀ w ∈ targets, c.Undriven w

variable {origin : Circuit} {given : Set NodeId} {targets : List NodeId}

theorem Staged.push (h : origin.Staged given targets c) (hfits : c.Fits node)
    (hdriven : ∀ name, node.gate ≠ .wire name none) (hwell : WellFormed ⟨c.nodes.push node⟩) :
    origin.Staged given targets ⟨c.nodes.push node⟩ where
  grown := le_trans h.grown (c.le_push node)
  wellFormed := hwell
  rests := by
    intro id hid
    rw [size, Array.size_push] at hid
    rcases Nat.lt_succ_iff_lt_or_eq.mp hid with hlt | rfl
    · exact (h.rests id hlt).mono (c.le_push node)
    · exact rests_push hdriven fun o ho => h.rests o (hfits.operand_lt ho)
  distinct := h.distinct
  undriven := fun w hw => (h.undriven w hw).push node

theorem staged_lasts : Lasts (origin.Staged given targets) where
  gate := by
    intro c node h hfits hgate
    refine h.push hfits (fun name heq => ?_) (h.wellFormed.push
      (h.wellFormed.valid_of_fits hfits hgate) hfits ?_ ?_)
    · rw [heq] at hgate
      exact hgate
    · rintro value w rfl
      exact hgate.elim
    · rintro name w rfl
      exact hgate.elim
  constant := by
    intro c w value h hvalid hvalue hfresh
    refine h.push hvalue (by simp) (h.wellFormed.push hvalid hvalue ?_ (by simp))
    exact fun _ _ _ => find?_eq_none_iff.mp hfresh

/-- The first of the targets may be driven by whatever there is. -/
theorem Staged.drive {target source : NodeId} {w : Nat} {name : String}
    (h : origin.Staged given (target :: targets) c)
    (htarget : c.nodes[target]? = some ⟨w, .wire name none⟩) (hsource : c.width source = .ok w) :
    origin.Staged given targets
      ⟨c.nodes.setIfInBounds target ⟨w, .wire name (some source)⟩⟩ where
  grown := le_trans h.grown (le_drive htarget)
  wellFormed := h.wellFormed.drive htarget hsource
  rests := fun id hid => (h.rests id (by simpa [size] using hid)).mono (le_drive htarget)
  distinct := (List.nodup_cons.mp h.distinct).2
  undriven := by
    intro other hother
    refine (h.undriven other (List.mem_cons_of_mem _ hother)).drive ?_ _
    rintro rfl
    exact (List.nodup_cons.mp h.distinct).1 hother

end Circuit

namespace Build

variable {α β : Type} {c : Circuit}

/-! ### Answers -/

/-- The request is answered, and the circuit afterwards and the answer have a property. -/
def Answers (request : Build α) (c : Circuit) (P : Circuit → α → Prop) : Prop :=
  ∃ a c', request.Yields c a c' ∧ c ≤ c' ∧ P c' a

theorem Answers.mono {request : Build α} {P Q : Circuit → α → Prop} (h : request.Answers c P)
    (hPQ : ∀ c' a, c ≤ c' → P c' a → Q c' a) : request.Answers c Q := by
  obtain ⟨a, c', hyields, hle, hP⟩ := h
  exact ⟨a, c', hyields, hle, hPQ c' a hle hP⟩

theorem pure_answers {P : Circuit → α → Prop} {a : α} (h : P c a) :
    (pure a : Build α).Answers c P :=
  ⟨a, c, rfl, c.le_refl, h⟩

/-- The second part is made to the circuit that the first part leaves. -/
theorem bind_answers {x : Build α} {f : α → Build β} {P : Circuit → α → Prop}
    {Q : Circuit → β → Prop} (hx : x.Answers c P)
    (hf : ∀ a c', c ≤ c' → P c' a → (f a).Answers c' Q) : (x >>= f).Answers c Q := by
  obtain ⟨a, c₁, hfirst, hle₁, hP⟩ := hx
  obtain ⟨b, c₂, hsecond, hle₂, hQ⟩ := hf a c₁ hle₁ hP
  exact ⟨b, c₂, yields_bind_iff.mpr ⟨a, c₁, hfirst, hsecond⟩, Circuit.le_trans hle₁ hle₂, hQ⟩

/-- A check that is passed leaves the circuit as it is. -/
theorem bind_answers_of_yields {x : Build α} {f : α → Build β} {Q : Circuit → β → Prop} {a : α}
    (hx : x.Yields c a c) (hf : (f a).Answers c Q) : (x >>= f).Answers c Q := by
  obtain ⟨b, c', hyields, hle, hQ⟩ := hf
  exact ⟨b, c', yields_bind_iff.mpr ⟨a, c, hx, hyields⟩, hle, hQ⟩

/-- The property may speak of the part of the list that was worked off. -/
theorem foldlM_answers {f : β → α → Build β} {I : List α → Circuit → β → Prop} {l : List α}
    (hf : ∀ done a rest, l = done ++ a :: rest → ∀ b c', c ≤ c' → I done c' b →
      (f b a).Answers c' (I (done ++ [a]))) {b : β} (hb : I [] c b) :
    (l.foldlM f b).Answers c (I l) := by
  suffices key : ∀ rest done b c', l = done ++ rest → c ≤ c' → I done c' b →
      (rest.foldlM f b).Answers c' (I l) from key l [] b c rfl c.le_refl hb
  intro rest
  induction rest with
  | nil =>
      intro done b c' hl _ hb
      rw [List.append_nil] at hl
      exact pure_answers (hl ▸ hb)
  | cons a rest ih =>
      intro done b c' hl hle hb
      rw [List.foldlM_cons]
      refine bind_answers (hf done a rest hl b c' hle hb) fun b' c₁ hle₁ hb' => ?_
      exact ih (done ++ [a]) b' c₁ (by simp [hl]) (Circuit.le_trans hle hle₁) hb'

/-- What is answered for one element is still so when the others have been answered. -/
theorem mapM_answers {f : α → Build β} {J : Circuit → Prop} {P : Circuit → α → β → Prop}
    {l : List α} (hmono : ∀ c c' a b, c ≤ c' → P c a b → P c' a b)
    (hf : ∀ a ∈ l, ∀ c', c ≤ c' → J c' → (f a).Answers c' fun c'' b => J c'' ∧ P c'' a b)
    (hc : J c) :
    (l.mapM f).Answers c fun c' answers => J c' ∧ List.Forall₂ (P c') l answers := by
  induction l generalizing c with
  | nil => exact pure_answers ⟨hc, .nil⟩
  | cons a rest ih =>
      rw [List.mapM_cons]
      refine bind_answers (hf a List.mem_cons_self c c.le_refl hc) fun b c₁ hle₁ h₁ => ?_
      refine bind_answers (ih (fun a' ha' c' hle' => hf a' (List.mem_cons_of_mem _ ha') c'
        (Circuit.le_trans hle₁ hle')) h₁.1) fun bs c₂ hle₂ h₂ => ?_
      exact pure_answers ⟨h₂.1, .cons (hmono _ _ _ _ hle₂ h₁.2) h₂.2⟩

/-- What is kept may depend on the elements that are still to come. -/
theorem forM_answers {f : α → Build Unit} {I : List α → Circuit → Prop}
    {P : Circuit → α → Prop} {l : List α} (hmono : ∀ c c' a, c ≤ c' → P c a → P c' a)
    (hf : ∀ a ∈ l, ∀ rest c', c ≤ c' → I (a :: rest) c' →
      (f a).Answers c' fun c'' _ => I rest c'' ∧ P c'' a)
    (hc : I l c) : (l.forM f).Answers c fun c' _ => I [] c' ∧ ∀ a ∈ l, P c' a := by
  induction l generalizing c with
  | nil => exact pure_answers ⟨hc, nofun⟩
  | cons a rest ih =>
      refine bind_answers (hf a List.mem_cons_self rest c c.le_refl hc) fun _ c₁ hle₁ h₁ => ?_
      refine (ih (fun a' ha' rest' c' hle' => hf a' (List.mem_cons_of_mem _ ha') rest' c'
        (Circuit.le_trans hle₁ hle')) h₁.1).mono fun c₂ _ hle₂ h₂ => ⟨h₂.1, ?_⟩
      exact List.forall_mem_cons.mpr ⟨hmono _ _ _ hle₂ h₁.2, h₂.2⟩

/-! ### Gates -/

section Gates

variable {J : Circuit → Prop} (hJ : Circuit.Lasts J) (hc : J c) {given : Set NodeId} {w : Nat}
include hJ hc

/-- The request is answered with a node of the width that rests on the nodes given. -/
def Makes (request : Build NodeId) (c : Circuit) (J : Circuit → Prop) (given : Set NodeId)
    (w : Nat) : Prop :=
  request.Answers c fun c' id => J c' ∧ c'.Signal given w id

omit hJ in
theorem pure_makes {id : NodeId} (h : c.Signal given w id) :
    (pure id : Build NodeId).Makes c J given w :=
  pure_answers ⟨hc, h⟩

theorem push_makes {node : Node} (hfits : c.Fits node) (hgate : node.gate.Computes)
    (hoperands : ∀ o ∈ node.gate.operands, c.Rests given o) :
    (push node).Makes c J given node.width := by
  refine ⟨c.size, _, push_yields_iff.mpr ⟨rfl, rfl⟩, c.le_push node, hJ.gate hc hfits hgate, ?_, ?_⟩
  · exact Circuit.width_eq_ok_iff.mpr ⟨node, Array.getElem?_push_size, rfl⟩
  · refine Circuit.rests_push (fun name heq => ?_) hoperands
    rw [heq] at hgate
    exact hgate

omit hJ in
/-- Nodes of one width are made one by one. -/
theorem mapM_makes {f : α → Build NodeId} {l : List α}
    (hf : ∀ a ∈ l, ∀ c', c ≤ c' → J c' → (f a).Makes c' J given w) :
    (l.mapM f).Answers c fun c' nodes =>
      J c' ∧ nodes.length = l.length ∧ ∀ node ∈ nodes, c'.Signal given w node := by
  refine (mapM_answers (J := J) (P := fun c' _ node => c'.Signal given w node)
    (fun _ _ _ _ hle h => h.mono hle) hf hc).mono fun c' nodes _ h => ?_
  refine ⟨h.1, h.2.length_eq.symm, fun node hnode => ?_⟩
  obtain ⟨i, hi, rfl⟩ := List.mem_iff_getElem.mp hnode
  exact h.2.get (h.2.length_eq ▸ hi) hi

theorem shared_makes (hw : Word.ValidWidth w) {value : Nat} (hvalue : value < 2 ^ w) :
    (shared ⟨w, .constant value⟩).Makes c J given w := by
  have hsignal : ∀ {id : NodeId} {c' : Circuit}, c'.nodes[id]? = some ⟨w, .constant value⟩ →
      c'.Signal given w id := fun hnode =>
    ⟨Circuit.width_eq_ok_iff.mpr ⟨_, hnode, rfl⟩, .node hnode (by simp) (by simp [Gate.operands])⟩
  cases hfind : c.find? ⟨w, .constant value⟩ with
  | some id =>
      have hyields := shared_yields_iff.mpr (.inl ⟨hfind, rfl⟩)
      exact ⟨id, c, hyields, c.le_refl, hc, hsignal (shared_yields hyields)⟩
  | none =>
      have hyields := shared_yields_iff.mpr (.inr ⟨hfind, rfl, rfl⟩)
      exact ⟨_, _, hyields, c.le_push _, hJ.constant hc hw hvalue hfind,
        hsignal (shared_yields hyields)⟩

theorem high_makes : high.Makes c J given 1 := shared_makes hJ hc (by decide) (by decide)

theorem low_makes : low.Makes c J given 1 := shared_makes hJ hc (by decide) (by decide)

theorem constant_makes (hw : Word.ValidWidth w) (value : Nat) :
    (constant value w).Makes c J given w := by
  refine bind_answers_of_yields (a := ()) (checkWidth_yields_iff.mpr ⟨hw, rfl⟩) ?_
  have hlt := Word.truncate_lt w value
  rw [Word.count_of_valid hw] at hlt
  exact shared_makes hJ hc hw hlt

theorem not_makes {operand : NodeId} (h : c.Signal given w operand) :
    (not operand).Makes c J given w := by
  refine bind_answers_of_yields (width_yields_iff.mpr ⟨h.width, rfl⟩) ?_
  exact push_makes hJ hc h.width trivial (by simpa [Gate.operands] using h.rests)

theorem binary_makes (op : BinaryOp) {left right : NodeId} (hleft : c.Signal given w left)
    (hright : c.Signal given w right) :
    (binary op left right).Makes c J given (op.resultWidth w) := by
  refine bind_answers_of_yields (width_yields_iff.mpr ⟨hleft.width, rfl⟩) ?_
  refine bind_answers_of_yields (width_yields_iff.mpr ⟨hright.width, rfl⟩) ?_
  refine bind_answers_of_yields (a := ()) (matchWidths_yields_iff.mpr ⟨rfl, rfl⟩) ?_
  refine push_makes hJ hc ⟨w, hleft.width, hright.width, rfl⟩ trivial fun o ho => ?_
  simp only [Gate.operands, List.mem_cons, List.not_mem_nil, or_false] at ho
  rcases ho with rfl | rfl
  · exact hleft.rests
  · exact hright.rests

theorem implies_makes {premise conclusion : NodeId} (hpremise : c.Signal given w premise)
    (hconclusion : c.Signal given w conclusion) :
    (implies premise conclusion).Makes c J given w :=
  bind_answers (not_makes hJ hc hpremise) fun _ _ hle h =>
    binary_makes hJ h.1 .or h.2 (hconclusion.mono hle)

theorem mux_makes {select ifTrue ifFalse : NodeId} (hselect : c.Signal given 1 select)
    (htrue : c.Signal given w ifTrue) (hfalse : c.Signal given w ifFalse) :
    (mux select ifTrue ifFalse).Makes c J given w := by
  refine bind_answers_of_yields (width_yields_iff.mpr ⟨hselect.width, rfl⟩) ?_
  refine bind_answers_of_yields (a := ()) (matchWidths_yields_iff.mpr ⟨rfl, rfl⟩) ?_
  refine bind_answers_of_yields (width_yields_iff.mpr ⟨htrue.width, rfl⟩) ?_
  refine bind_answers_of_yields (width_yields_iff.mpr ⟨hfalse.width, rfl⟩) ?_
  refine bind_answers_of_yields (a := ()) (matchWidths_yields_iff.mpr ⟨rfl, rfl⟩) ?_
  refine push_makes hJ hc ⟨hselect.width, htrue.width, hfalse.width⟩ trivial fun o ho => ?_
  simp only [Gate.operands, List.mem_cons, List.not_mem_nil, or_false] at ho
  rcases ho with rfl | rfl | rfl
  · exact hselect.rests
  · exact htrue.rests
  · exact hfalse.rests

/-- A chain of bits is a bit. -/
theorem chain_makes (op : BinaryOp) (hop : op.resultWidth 1 = 1) {first : NodeId}
    {rest : List NodeId} (h : ∀ x ∈ first :: rest, c.Signal given 1 x) :
    (rest.foldlM (binary op) first).Makes c J given 1 := by
  obtain ⟨hfirst, hrest⟩ := List.forall_mem_cons.mp h
  refine foldlM_answers (I := fun _ c' id => J c' ∧ c'.Signal given 1 id) ?_ ⟨hc, hfirst⟩
  intro done x after hsplit id c' hle h'
  have hx : c.Signal given 1 x := hrest x (by simp [hsplit])
  have hbinary := binary_makes hJ h'.1 op h'.2 (hx.mono hle)
  rwa [hop] at hbinary

theorem andAll_makes {operands : List NodeId} (h : ∀ x ∈ operands, c.Signal given 1 x) :
    (andAll operands).Makes c J given 1 := by
  cases operands with
  | nil => exact high_makes hJ hc
  | cons first rest => exact chain_makes hJ hc .and rfl h

theorem orAll_makes {operands : List NodeId} (h : ∀ x ∈ operands, c.Signal given 1 x) :
    (orAll operands).Makes c J given 1 := by
  cases operands with
  | nil => exact low_makes hJ hc
  | cons first rest => exact chain_makes hJ hc .or rfl h

theorem oneHot_makes {selects values : List NodeId} (hne : values ≠ [])
    (hlength : selects.length = values.length) (hselects : ∀ x ∈ selects, c.Signal given 1 x)
    (hvalues : ∀ x ∈ values, c.Signal given w x) : (oneHot selects values).Makes c J given w := by
  have hwidths : ∀ x ∈ values, c.width x = .ok w := fun x hx => (hvalues x hx).width
  have hbits : ∀ x ∈ selects, c.width x = .ok 1 := fun x hx => (hselects x hx).width
  have hyields := oneHot_yields_iff.mpr ⟨w, hne, hlength, hbits, hwidths, rfl, rfl⟩
  obtain ⟨id, c', hpush, hle, h⟩ : (push ⟨w, .oneHot selects values⟩).Makes c J given w := by
    refine push_makes hJ hc ⟨hne, hlength, hbits, hwidths⟩ trivial fun o ho => ?_
    rcases List.mem_append.mp ho with ho | ho
    · exact (hselects o ho).rests
    · exact (hvalues o ho).rests
  obtain ⟨rfl, rfl⟩ := push_yields_iff.mp hpush
  exact ⟨_, _, hyields, hle, h⟩

end Gates

end Build
end Interlock
