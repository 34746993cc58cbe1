/-
What requests say about the finished circuit.

`request.Ensures P` says that a request grows the circuit and that, if it is answered, `P` holds of
the answer in every settled circuit on whose way from its origin the answer was given.  The rules
for composed requests make a construction of many steps a conjunction of what its gates say, in
terms of the words in the end: neither the circuits in between nor the numbers of the nodes appear.

The bits of a gate are those of its operands, whatever the widths are, except that an inverter
needs a bit to invert.
-/
import Mathlib.Data.List.Forall2
import Interlock.Proofs.Circuit.Settled

namespace Interlock

/-! ### Words and their lowest bits -/

namespace Word

theorem isHigh_eq_testBit (value : Nat) : isHigh value = value.testBit 0 := by
  rw [Nat.testBit_zero]
  unfold isHigh
  by_cases h : value % 2 = 1
  · simp [h]
  · simp [h]

theorem isHigh_and (a b : Nat) : isHigh (a &&& b) = (isHigh a && isHigh b) := by
  simp only [isHigh_eq_testBit, Nat.testBit_and]

theorem isHigh_or (a b : Nat) : isHigh (a ||| b) = (isHigh a || isHigh b) := by
  simp only [isHigh_eq_testBit, Nat.testBit_or]

theorem isHigh_not_bit (a : Nat) : isHigh (top 1 ^^^ a) = !isHigh a := by
  rw [isHigh_eq_testBit, Nat.testBit_xor, ← isHigh_eq_testBit, ← isHigh_eq_testBit,
    show isHigh (top 1) = true from rfl, Bool.true_xor]

theorem and_lt_count {w a b : Nat} (ha : a < count w) : a &&& b < count w :=
  Nat.lt_of_le_of_lt Nat.and_le_left ha

theorem or_lt_count {w a b : Nat} (ha : a < count w) (hb : b < count w) : a ||| b < count w :=
  Nat.or_lt_two_pow ha hb

theorem not_lt_count {w a : Nat} (ha : a < count w) : top w ^^^ a < count w := by
  refine Nat.xor_lt_two_pow ?_ ha
  have := count_pos w
  show count w - 1 < count w
  omega

end Word

namespace Build

variable {α β : Type}

/-- The request grows the circuit, and its answer has a property in every settled circuit that
comes of it. -/
structure Ensures (request : Build α) (P : Settled → α → Prop) : Prop where
  grows : request.Grows
  holds : ∀ {c a c'}, request.Yields c a c' → ∀ s : Settled, s.origin ≤ c → c' ≤ s.circuit → P s a

/-! ### Rules -/

theorem Ensures.mono {request : Build α} {P Q : Settled → α → Prop} (h : request.Ensures P)
    (hPQ : ∀ s a, P s a → Q s a) : request.Ensures Q :=
  ⟨h.grows, fun hyields s hfrom hle => hPQ s _ (h.holds hyields s hfrom hle)⟩

theorem Ensures.and {request : Build α} {P Q : Settled → α → Prop} (hP : request.Ensures P)
    (hQ : request.Ensures Q) : request.Ensures fun s a => P s a ∧ Q s a :=
  ⟨hP.grows, fun hyields s hfrom hle =>
    ⟨hP.holds hyields s hfrom hle, hQ.holds hyields s hfrom hle⟩⟩

/-- What is ensured is ensured of all words that agree with every node. -/
theorem Ensures.everywhere {request : Build α} {P : Settled → α → Prop} (h : request.Ensures P) :
    request.Ensures fun s a => s.Everywhere (P · a) :=
  ⟨h.grows, fun hyields _ hfrom hle _ horigin hcircuit =>
    h.holds hyields _ (horigin ▸ hfrom) (hcircuit ▸ hle)⟩

theorem Grows.ensures {request : Build α} (h : request.Grows) :
    request.Ensures fun _ _ => True :=
  ⟨h, fun _ _ _ _ => trivial⟩

/-- The answer was given on the way to the finished circuit. -/
theorem Grows.ensures_yields {request : Build α} (h : request.Grows) :
    request.Ensures fun s a =>
      ∃ c c', s.origin ≤ c ∧ request.Yields c a c' ∧ c' ≤ s.circuit :=
  ⟨h, fun {c _ c'} hyields _ hfrom hle => ⟨c, c', hfrom, hyields, hle⟩⟩

theorem pure_ensures {P : Settled → α → Prop} {a : α} (h : ∀ s, P s a) :
    (pure a : Build α).Ensures P := by
  refine ⟨pure_grows a, fun hyields s _ _ => ?_⟩
  obtain ⟨rfl, -⟩ := yields_pure_iff.mp hyields
  exact h s

theorem throw_ensures {P : Settled → α → Prop} (fault : Circuit.Fault) :
    (throw fault : Build α).Ensures P :=
  ⟨throw_grows fault, fun hyields => absurd hyields not_yields_throw⟩

/-- What the first part says is known where the second part is described. -/
theorem bind_ensures {x : Build α} {f : α → Build β} {P : Settled → α → Prop}
    {Q : Settled → β → Prop} (hx : x.Ensures P)
    (hf : ∀ a, (f a).Ensures fun s b => P s a → Q s b) : (x >>= f).Ensures Q := by
  refine ⟨bind_grows hx.grows fun a => (hf a).grows, fun hyields s hfrom hle => ?_⟩
  obtain ⟨a, c₁, hfirst, hsecond⟩ := yields_bind_iff.mp hyields
  have hle₁ := hx.grows.le_of_yields hfirst
  have hle₂ := (hf a).grows.le_of_yields hsecond
  refine (hf a).holds hsecond s (Circuit.le_trans hfrom hle₁) hle ?_
  exact hx.holds hfirst s hfrom (Circuit.le_trans hle₂ hle)

theorem forM_ensures {f : α → Build Unit} {P : Settled → α → Prop} {l : List α}
    (hf : ∀ a ∈ l, (f a).Ensures fun s _ => P s a) :
    (l.forM f).Ensures fun s _ => ∀ a ∈ l, P s a := by
  induction l with
  | nil => exact pure_ensures fun s a ha => absurd ha (by simp)
  | cons a rest ih =>
      have hrest := ih fun b hb => hf b (List.mem_cons_of_mem _ hb)
      refine bind_ensures (hf a (by simp)) fun _ => hrest.mono fun s _ hrest ha b hb => ?_
      rcases List.mem_cons.mp hb with rfl | hb
      · exact ha
      · exact hrest b hb

theorem mapM_ensures {f : α → Build β} {P : Settled → α → β → Prop} {l : List α}
    (hf : ∀ a ∈ l, (f a).Ensures fun s b => P s a b) :
    (l.mapM f).Ensures fun s answers => List.Forall₂ (P s) l answers := by
  induction l with
  | nil => exact pure_ensures fun s => .nil
  | cons a rest ih =>
      have hrest := ih fun b hb => hf b (List.mem_cons_of_mem _ hb)
      rw [List.mapM_cons]
      refine bind_ensures (hf a (by simp)) fun b => bind_ensures hrest fun bs => ?_
      exact pure_ensures fun s hrest ha => .cons ha hrest

/-- A fold keeps what each of its steps keeps.  The property may speak of the part of the list
that was worked off. -/
theorem foldlM_ensures {f : β → α → Build β} {l : List α} {I : List α → Settled → β → Prop}
    (hf : ∀ done a rest, l = done ++ a :: rest → ∀ b,
      (f b a).Ensures fun s b' => I done s b → I (done ++ [a]) s b') (b : β) :
    (l.foldlM f b).Ensures fun s b' => I [] s b → I l s b' := by
  suffices key : ∀ rest done b, l = done ++ rest →
      (rest.foldlM f b).Ensures fun s b' => I done s b → I l s b' from key l [] b rfl
  intro rest
  induction rest with
  | nil =>
      intro done b hl
      rw [List.append_nil] at hl
      subst hl
      exact pure_ensures fun s h => h
  | cons a rest ih =>
      intro done b hl
      rw [List.foldlM_cons]
      refine bind_ensures (hf done a rest hl b) fun b' => ?_
      refine (ih (done ++ [a]) b' (by simp [hl])).mono fun s b'' h hstep hdone => ?_
      exact h (hstep hdone)

/-! ### Nodes -/

theorem width_ensures (id : NodeId) :
    (width id).Ensures fun s w => s.circuit.width id = .ok w := by
  refine ⟨width_grows id, fun {c w c'} hyields s _ hle => ?_⟩
  rw [Yields, run_width] at hyields
  cases hw : c.width id with
  | error fault => rw [hw] at hyields; cases hyields
  | ok _ =>
      rw [hw] at hyields
      cases hyields
      exact Circuit.width_of_le hle hw

theorem matchWidths_ensures (op : String) (left right : Nat) :
    (matchWidths op left right).Ensures fun _ _ => left = right := by
  unfold matchWidths
  split
  · rename_i h
    exact pure_ensures fun _ => h
  · exact throw_ensures _

theorem push_ensures {node : Node} (hsettled : ∀ name, node.gate ≠ .wire name none) :
    (push node).Ensures fun s id => s.circuit.nodes[id]? = some node := by
  refine ⟨push_grows node, fun {c a c'} hyields s _ hle => ?_⟩
  cases hyields
  exact Circuit.node_of_le hle (by simp [Circuit.size]) hsettled

theorem shared_ensures {node : Node} (hsettled : ∀ name, node.gate ≠ .wire name none) :
    (shared node).Ensures fun s id => s.circuit.nodes[id]? = some node :=
  ⟨shared_grows node, fun hyields _ _ hle =>
    Circuit.node_of_le hle (shared_yields hyields) hsettled⟩

theorem unary_ensures (op : UnaryOp) (operand : NodeId) :
    (unary op operand).Ensures fun s id => ∃ w, s.circuit.width operand = .ok w ∧
      s.circuit.nodes[id]? = some ⟨op.resultWidth w, .unary op operand⟩ := by
  refine bind_ensures (width_ensures operand) fun w => ?_
  exact (push_ensures (by simp)).mono fun s id hnode hw => ⟨w, hw, hnode⟩

theorem binary_ensures (op : BinaryOp) (left right : NodeId) :
    (binary op left right).Ensures fun s id => ∃ w, s.circuit.width left = .ok w ∧
      s.circuit.width right = .ok w ∧
      s.circuit.nodes[id]? = some ⟨op.resultWidth w, .binary op left right⟩ := by
  refine bind_ensures (width_ensures left) fun lw => ?_
  refine bind_ensures (width_ensures right) fun rw' => ?_
  refine bind_ensures (matchWidths_ensures _ _ _) fun _ => ?_
  refine (push_ensures (by simp)).mono fun s id hnode hmatch hright hleft => ?_
  subst hmatch
  exact ⟨lw, hleft, hright, hnode⟩

/-- A wire carries the word of its driver. -/
theorem drive_ensures (target source : NodeId) :
    (drive target source).Ensures fun s _ => s.word target = s.word source := by
  refine ⟨drive_grows target source, fun {c a c'} hyields s _ hle => ?_⟩
  rcases drive_cases target source c with ⟨fault, hrun⟩ | ⟨w, name, htarget, hwidth, hrun⟩
  · rw [Yields, hrun] at hyields
    cases hyields
  · have hgrown : c ≤ ⟨c.nodes.setIfInBounds target ⟨w, .wire name (some source)⟩⟩ :=
      Circuit.le_drive htarget
    rw [Yields, hrun] at hyields
    cases hyields
    obtain ⟨hlt, -⟩ := Array.getElem?_eq_some_iff.mp htarget
    have hnode : s.circuit.nodes[target]? = some ⟨w, .wire name (some source)⟩ :=
      Circuit.node_of_le hle (by simp [hlt]) (by simp)
    have hsource := Circuit.width_of_le (Circuit.le_trans hgrown hle) hwidth
    rw [Settled.word_eq hnode]
    exact Word.truncate_of_lt (Settled.word_lt hsource)

/-! ### Bits -/

theorem high_ensures : high.Ensures fun s id => s.IsBit id ∧ s.bit id = true := by
  refine (shared_ensures (by simp)).mono fun s id hnode => ⟨?_, ?_⟩
  · exact Circuit.width_eq_ok_iff.mpr ⟨_, hnode, rfl⟩
  · rw [Settled.bit_eq, Settled.word_eq hnode]
    rfl

theorem low_ensures : low.Ensures fun s id => s.IsBit id ∧ s.bit id = false := by
  refine (shared_ensures (by simp)).mono fun s id hnode => ⟨?_, ?_⟩
  · exact Circuit.width_eq_ok_iff.mpr ⟨_, hnode, rfl⟩
  · rw [Settled.bit_eq, Settled.word_eq hnode]
    rfl

theorem isBit_iff_of_width {s : Settled} {id : NodeId} {w : Nat} (h : s.circuit.width id = .ok w) :
    s.IsBit id ↔ w = 1 := by
  rw [Settled.IsBit, h, Except.ok.injEq]

theorem not_ensures (operand : NodeId) :
    (not operand).Ensures fun s id => (s.IsBit operand ↔ s.IsBit id) ∧
      (s.IsBit operand → s.bit id = !s.bit operand) := by
  refine (unary_ensures .not operand).mono fun s id ⟨w, hw, hnode⟩ => ?_
  have hid : s.circuit.width id = .ok w := Circuit.width_eq_ok_iff.mpr ⟨_, hnode, rfl⟩
  refine ⟨by rw [isBit_iff_of_width hw, isBit_iff_of_width hid], fun hbit => ?_⟩
  obtain rfl := (isBit_iff_of_width hw).mp hbit
  have hwidth : s.circuit.widthD operand = 1 := by
    obtain ⟨node, hoperand, hone⟩ := Circuit.width_eq_ok_iff.mp hw
    simp [Circuit.widthD, hoperand, hone]
  have hword : s.word id = Word.top 1 ^^^ s.word operand := by
    rw [Settled.word_eq hnode]
    unfold Circuit.nodeWord
    dsimp only [UnaryOp.apply]
    rw [hwidth]
    exact Word.truncate_of_lt (Word.not_lt_count (Settled.word_lt hw))
  rw [Settled.bit_eq, hword, Word.isHigh_not_bit, Settled.bit_eq]

/-- A bitwise operation has the width of its operands, and its lowest bit is made of theirs. -/
theorem bitwise_ensures (op : BinaryOp) (f : Bool → Bool → Bool)
    (hwidth : ∀ w, op.resultWidth w = w)
    (hfits : ∀ w a b, a < Word.count w → b < Word.count w → op.apply w a b < Word.count w)
    (hhigh : ∀ w a b, Word.isHigh (op.apply w a b) = f (Word.isHigh a) (Word.isHigh b))
    (left right : NodeId) :
    (binary op left right).Ensures fun s id => (s.IsBit left ↔ s.IsBit id) ∧
      (s.IsBit right ↔ s.IsBit id) ∧ s.bit id = f (s.bit left) (s.bit right) := by
  refine (binary_ensures op left right).mono fun s id ⟨w, hleft, hright, hnode⟩ => ?_
  rw [hwidth] at hnode
  have hid : s.circuit.width id = .ok w := Circuit.width_eq_ok_iff.mpr ⟨_, hnode, rfl⟩
  have hwidthD : s.circuit.widthD left = w := by
    obtain ⟨node, hl, hlw⟩ := Circuit.width_eq_ok_iff.mp hleft
    simp [Circuit.widthD, hl, hlw]
  have hword : s.word id = op.apply w (s.word left) (s.word right) := by
    rw [Settled.word_eq hnode]
    unfold Circuit.nodeWord
    dsimp only
    rw [hwidthD]
    exact Word.truncate_of_lt (hfits w _ _ (Settled.word_lt hleft) (Settled.word_lt hright))
  refine ⟨?_, ?_, ?_⟩
  · rw [isBit_iff_of_width hleft, isBit_iff_of_width hid]
  · rw [isBit_iff_of_width hright, isBit_iff_of_width hid]
  · rw [Settled.bit_eq, hword, hhigh]
    rfl

theorem and_ensures (left right : NodeId) :
    (and left right).Ensures fun s id => (s.IsBit left ↔ s.IsBit id) ∧
      (s.IsBit right ↔ s.IsBit id) ∧ s.bit id = (s.bit left && s.bit right) :=
  bitwise_ensures .and Bool.and (fun _ => rfl) (fun _ _ _ ha _ => Word.and_lt_count ha)
    (fun _ a b => Word.isHigh_and a b) left right

theorem or_ensures (left right : NodeId) :
    (or left right).Ensures fun s id => (s.IsBit left ↔ s.IsBit id) ∧
      (s.IsBit right ↔ s.IsBit id) ∧ s.bit id = (s.bit left || s.bit right) :=
  bitwise_ensures .or Bool.or (fun _ => rfl) (fun _ _ _ ha hb => Word.or_lt_count ha hb)
    (fun _ a b => Word.isHigh_or a b) left right

theorem implies_ensures (premise conclusion : NodeId) :
    (implies premise conclusion).Ensures fun s id => (s.IsBit premise ↔ s.IsBit id) ∧
      (s.IsBit premise → s.bit id = (!s.bit premise || s.bit conclusion)) := by
  refine bind_ensures (not_ensures premise) fun inverted => ?_
  refine (or_ensures inverted conclusion).mono fun s id hor hnot => ⟨?_, fun hbit => ?_⟩
  · rw [hnot.1, hor.1]
  · rw [hor.2.2, hnot.2 hbit]

/-- A chain of such operations has the width of all its operands. -/
theorem chain_ensures {request : NodeId → NodeId → Build NodeId} {f : Bool → Bool → Bool}
    (h : ∀ left right, (request left right).Ensures fun s id => (s.IsBit left ↔ s.IsBit id) ∧
      (s.IsBit right ↔ s.IsBit id) ∧ s.bit id = f (s.bit left) (s.bit right))
    (first : NodeId) (rest : List NodeId) :
    (rest.foldlM request first).Ensures fun s id =>
      (s.IsBit id ↔ ∀ x ∈ first :: rest, s.IsBit x) ∧
        s.bit id = (rest.map s.bit).foldl f (s.bit first) := by
  refine (foldlM_ensures (I := fun done s id => (s.IsBit id ↔ ∀ x ∈ first :: done, s.IsBit x) ∧
    s.bit id = (done.map s.bit).foldl f (s.bit first)) ?_ first).mono fun s id h => h (by simp)
  intro done x _ _ id
  refine (h id x).mono fun s id' hop hdone => ⟨?_, ?_⟩
  · rw [← List.cons_append, ← hop.1, hdone.1]
    refine ⟨fun hall y hy => ?_, fun hall y hy => hall y (List.mem_append_left _ hy)⟩
    rcases List.mem_append.mp hy with hy | hy
    · exact hall y hy
    · rw [List.mem_singleton.mp hy, hop.2.1, ← hop.1, hdone.1]
      exact hall
  · rw [hop.2.2, hdone.2, List.map_append, List.foldl_append]
    rfl

theorem foldl_and (l : List Bool) : ∀ b, l.foldl Bool.and b = (b && l.all id) := by
  induction l with
  | nil => simp
  | cons x rest ih => intro b; simp [ih, Bool.and_assoc]

theorem foldl_or (l : List Bool) : ∀ b, l.foldl Bool.or b = (b || l.any id) := by
  induction l with
  | nil => simp
  | cons x rest ih => intro b; simp [ih, Bool.or_assoc]

theorem andAll_ensures (operands : List NodeId) :
    (andAll operands).Ensures fun s id => (s.IsBit id ↔ ∀ x ∈ operands, s.IsBit x) ∧
      s.bit id = operands.all s.bit := by
  cases operands with
  | nil => exact high_ensures.mono fun s id h => ⟨by simpa using h.1, by simpa using h.2⟩
  | cons first rest =>
      refine (chain_ensures and_ensures first rest).mono fun s id h => ⟨h.1, ?_⟩
      rw [h.2, foldl_and, List.all_map]
      rfl

theorem orAll_ensures (operands : List NodeId) :
    (orAll operands).Ensures fun s id => (s.IsBit id ↔ ∀ x ∈ operands, s.IsBit x) ∧
      s.bit id = operands.any s.bit := by
  cases operands with
  | nil => exact low_ensures.mono fun s id h => ⟨by simpa using h.1, by simpa using h.2⟩
  | cons first rest =>
      refine (chain_ensures or_ensures first rest).mono fun s id h => ⟨h.1, ?_⟩
      rw [h.2, foldl_or, List.any_map]
      rfl

end Build
end Interlock
