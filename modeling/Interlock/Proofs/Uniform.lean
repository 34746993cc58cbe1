/-
Validators and combiners that do not tell a node from its copy.

What a design brings along may make any request to a circuit.  It is uniform if it makes the same
requests of copies as of what they are copies of, so that what it makes of the copies is a copy of
what it makes of the originals; the nodes that were there when it was written down are nodes it
may know.  The combiners of the library are uniform, and so are the validators that a blueprint
describes.
-/
import Interlock.Blueprint.Assembly
import Interlock.Proofs.Circuit.Following

namespace Interlock

/-- Wherever the first nodes are their own copies, copied arguments get copied verdicts. -/
def Validator.Uniform (n : Nat) (validator : Validator) : Prop :=
  ∀ (k : Copy) (a b : Bundle), k.Fixes n → k.Carries a b →
    Build.Follows k (validator a) (validator b) Copy.Places

/-- Wherever the first nodes are their own copies, copied arguments and run bits get copied
inputs. -/
def Combiner.Uniform (n : Nat) (combiner : Combiner) : Prop :=
  ∀ (k : Copy) (arguments arguments' : List Bundle) (runs runs' : List NodeId), k.Fixes n →
    List.Forall₂ k.Carries arguments arguments' → List.Forall₂ k.Places runs runs' →
      Build.Follows k (combiner arguments runs) (combiner arguments' runs') Copy.Carries

/-- What an action brings along is uniform. -/
structure Action.Uniform (n : Nat) (action : Action) : Prop where
  validator : ∀ validator, action.validator? = some validator → validator.Uniform n
  combiner : ∀ combiner, action.combiner? = some combiner → combiner.Uniform n

/-- What the actions of a design bring along is uniform. -/
def Declarations.Uniform (d : Declarations) : Prop :=
  ∀ (id : ActionId) (action : Action), d.plan.roster.actions[id]? = some action →
    action.Uniform d.circuit.size

namespace Combination

theorem foldSite_follows {k : Copy} (op : BinaryOp) (fields : List Field)
    {folded folded' arguments arguments' : Bundle} {run run' : NodeId}
    (hfolded : k.Carries folded folded') (harguments : k.Carries arguments arguments')
    (hrun : k.Places run run') :
    Build.Follows k (foldSite op fields folded arguments run)
      (foldSite op fields folded' arguments' run') Copy.Carries := by
  unfold foldSite
  refine Build.bind_follows (Build.expectFields_follows harguments fields) fun k₁ _ _ hle _ => ?_
  have hnodes := Build.forall₂_zip (hfolded.mono hle).nodes (harguments.mono hle).nodes
  refine Build.bind_follows (Build.mapM_follows (R := Copy.Places) (fun hle h => h.mono hle)
    (hnodes.imp ?_)) fun k₂ nodes nodes' _ hall => Build.ofNodes_follows fields hall
  rintro ⟨current, argument⟩ ⟨current', argument'⟩ ⟨hcurrent, hargument⟩ k₂ hle₂
  refine Build.bind_follows (Build.width_follows (hargument.mono hle₂)) fun k₃ w _ hle₃ hw => ?_
  subst hw
  refine Build.bind_follows (Build.constant_follows 0 _) fun k₄ idle idle' hle₄ hidle => ?_
  have hle' := Copy.le_trans hle₂ (Copy.le_trans hle₃ hle₄)
  refine Build.bind_follows (Build.mux_follows (hrun.mono (Copy.le_trans hle hle'))
    (hargument.mono hle') hidle) fun k₅ gated gated' hle₅ hgated => ?_
  exact Build.binary_follows op (hcurrent.mono (Copy.le_trans hle' hle₅)) hgated

theorem foldRunning_follows {k : Copy} (op : BinaryOp) (shape : Shape)
    {arguments arguments' : List Bundle} {runs runs' : List NodeId}
    (harguments : List.Forall₂ k.Carries arguments arguments')
    (hruns : List.Forall₂ k.Places runs runs') :
    Build.Follows k (foldRunning op shape arguments runs) (foldRunning op shape arguments' runs')
      Copy.Carries := by
  refine Build.bind_follows (Build.zeros_follows shape.fields) fun k₁ _ _ hle hzeros => ?_
  refine Build.foldlM_follows ((Build.forall₂_zip harguments hruns).imp ?_) hzeros
  rintro ⟨b, run⟩ ⟨b', run'⟩ ⟨hb, hrun⟩ k₂ hle₂ folded folded' hfolded
  have hle' := Copy.le_trans hle hle₂
  exact foldSite_follows op shape.fields hfolded (hb.mono hle') (hrun.mono hle')

theorem foldRunning_uniform (op : BinaryOp) (shape : Shape) (n : Nat) :
    Combiner.Uniform n (foldRunning op shape) :=
  fun _ _ _ _ _ _ harguments hruns => foldRunning_follows op shape harguments hruns

theorem disjunction_uniform (shape : Shape) (n : Nat) : Combiner.Uniform n (disjunction shape) :=
  foldRunning_uniform .or shape n

theorem sum_uniform (shape : Shape) (n : Nat) : Combiner.Uniform n (sum shape) :=
  foldRunning_uniform .add shape n

end Combination

namespace Assembly

theorem node_follows {k : Copy} {a b : Bundle} (h : k.Carries a b) (name : String) :
    Build.Follows k (ofExcept (a.node name)) (ofExcept (b.node name)) Copy.Places := by
  refine Build.ofExcept_follows fun x hx => ?_
  obtain ⟨entries⟩ := a
  obtain ⟨entries'⟩ := b
  unfold Copy.Carries at h
  unfold Bundle.node at *
  dsimp only at *
  induction h with
  | nil => cases hx
  | @cons entry entry' _ _ hentry _ ih =>
      rw [List.find?_cons] at hx ⊢
      rw [← hentry.field]
      by_cases hname : (entry.1.name == name) = true
      · rw [hname] at hx ⊢
        cases hx
        exact ⟨_, rfl, hentry.node⟩
      · rw [Bool.eq_false_iff.mpr hname] at hx ⊢
        exact ih hx

/-- Arguments are compared with a constant, which is the same for copies. -/
theorem judge_uniform (limit : Blueprint.Limit) (width : Nat) (n : Nat) :
    Validator.Uniform n (judge limit width) := by
  intro k a b _ h
  unfold judge
  split
  · exact Build.high_follows
  · refine Build.bind_follows (node_follows h limit.field) fun k₁ x y _ hxy => ?_
    refine Build.bind_follows (Build.width_follows hxy) fun k₂ w w' hle hw => ?_
    subst hw
    refine Build.bind_follows (Build.constant_follows limit.below w') fun k₃ _ _ hle' hbound => ?_
    exact Build.binary_follows .lt (hxy.mono (Copy.le_trans hle hle')) hbound

end Assembly

end Interlock
