/-
The words that are applied to inputs.

Of a word that is applied to an input only the low bits are read, as many as the input has; an input
that is given no word reads zero, and one that is given several reads the latest.  So what can be
applied to inputs of one bit comes down to one bit each, however many words there are: the numbers
below a power of two stand for all of it.
-/
import Interlock.Circuit.Evaluation
import Interlock.Proofs.Circuit.WellFormed

namespace Interlock

/-! ### Words by input -/

namespace Stimulus

variable {stimulus : Stimulus}

theorem word_set (stimulus : Stimulus) (input other : NodeId) (word : Nat) :
    (stimulus.set input word).word other = if other = input then word else stimulus.word other := by
  unfold set Stimulus.word
  rw [List.lookup_cons]
  by_cases h : other = input
  · simp [h]
  · rw [if_neg h, beq_eq_false_iff_ne.mpr h]

/-- Words that are applied one after the other leave the words of other inputs as they are. -/
theorem word_foldl_set_of_not_mem (f : Nat → Nat) {inputs : List NodeId} {other : NodeId}
    (h : other ∉ inputs) : ∀ (start : Nat) (base : Stimulus), ((inputs.zipIdx start).foldl
      (fun stimulus (input, position) => stimulus.set input (f position)) base).word other =
        base.word other := by
  induction inputs with
  | nil => intro start base; rfl
  | cons input rest ih =>
      intro start base
      obtain ⟨hne, hrest⟩ := not_or.mp (mt List.mem_cons.mpr h)
      rw [List.zipIdx_cons, List.foldl_cons, ih hrest, word_set, if_neg hne]

/-- Of words that are applied to different inputs each has its own. -/
theorem word_foldl_set (f : Nat → Nat) {inputs : List NodeId} (hnodup : inputs.Nodup) :
    ∀ (start : Nat) (base : Stimulus) {i : Nat} {input : NodeId}, inputs[i]? = some input →
      ((inputs.zipIdx start).foldl
        (fun stimulus (input, position) => stimulus.set input (f position)) base).word input =
          f (start + i) := by
  induction inputs with
  | nil => intro start base i input h; cases h
  | cons first rest ih =>
      intro start base i input h
      obtain ⟨hfirst, hrest⟩ := List.nodup_cons.mp hnodup
      rw [List.zipIdx_cons, List.foldl_cons]
      cases i with
      | zero =>
          obtain rfl : first = input := Option.some.inj h
          rw [word_foldl_set_of_not_mem f hfirst, word_set, if_pos rfl, Nat.add_zero]
      | succ i => rw [ih hrest (start + 1) _ h, Nat.add_right_comm, Nat.add_assoc]

theorem mem_assigned_foldl_set (f : Nat → Nat) {inputs : List NodeId} {entry : NodeId × Nat} :
    ∀ (start : Nat) (base : Stimulus), entry ∈ ((inputs.zipIdx start).foldl
      (fun stimulus (input, position) => stimulus.set input (f position)) base).assigned →
        entry.1 ∈ inputs ∨ entry ∈ base.assigned := by
  induction inputs with
  | nil => intro start base h; exact .inr h
  | cons first rest ih =>
      intro start base h
      rw [List.zipIdx_cons, List.foldl_cons] at h
      rcases ih (start + 1) _ h with hrest | hbase
      · exact .inl (List.mem_cons_of_mem _ hrest)
      · rcases List.mem_cons.mp hbase with rfl | hold
        · exact .inl List.mem_cons_self
        · exact .inr hold

end Stimulus

/-! ### What is read of them -/

namespace Circuit

variable {c : Circuit} {stimulus stimulus' : Stimulus}

/-- The two give every input the same low bits. -/
def ReadsAlike (c : Circuit) (stimulus stimulus' : Stimulus) : Prop :=
  ∀ port ∈ c.inputs, Word.truncate port.width (stimulus.word port.node) =
    Word.truncate port.width (stimulus'.word port.node)

theorem settle_congr (h : c.ReadsAlike stimulus stimulus') (words : Array Nat) (id : NodeId) :
    c.settle stimulus words id = c.settle stimulus' words id := by
  unfold settle
  cases hnode : c.nodes[id]? with
  | none => rfl
  | some node =>
      obtain ⟨width, gate⟩ := node
      dsimp only
      congr 1
      cases gate with
      | input name => exact h ⟨id, name, width⟩ (mem_inputs.mpr hnode)
      | _ => rfl

/-- What is read alike settles the same words. -/
theorem valuationAlong_congr (h : c.ReadsAlike stimulus stimulus') (order : List NodeId) :
    c.valuationAlong order stimulus = c.valuationAlong order stimulus' :=
  congrArg Valuation.mk (List.foldl_ext _ _ _ fun words id _ => settle_congr h words id)

end Circuit

/-! ### Bits as a number -/

/-- For so many bits there is a number that has them. -/
theorem exists_assignment (n : Nat) : ∀ f : Nat → Nat,
    ∃ assignment < 2 ^ n, ∀ i < n, (assignment >>> i) % 2 = f i % 2 := by
  induction n with
  | zero => exact fun f => ⟨0, by simp, fun i hi => absurd hi (Nat.not_lt_zero i)⟩
  | succ n ih =>
      intro f
      obtain ⟨rest, hlt, hbits⟩ := ih fun i => f (i + 1)
      refine ⟨2 * rest + f 0 % 2, by rw [Nat.pow_succ]; omega, fun i hi => ?_⟩
      cases i with
      | zero => rw [Nat.shiftRight_zero]; omega
      | succ i =>
          have hhalf : (2 * rest + f 0 % 2) / 2 = rest := by omega
          rw [Nat.shiftRight_succ_inside, hhalf]
          exact hbits i (by omega)

end Interlock
