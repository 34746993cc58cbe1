/-
What requests on bundles say about the words of their fields.

Connecting two bundles makes them carry the same words.  A selection carries, field by field, the
disjunction of the words whose selects are high: zero if none is, and the words of one bundle, all
its fields together, if no other one is selected.
-/
import Mathlib.Data.List.GetD
import Interlock.Circuit.Record
import Interlock.Proofs.Circuit.Gates

namespace Interlock

/-! ### Lists of answers -/

theorem map_eq_of_forall₂ {α β γ : Type} {R : α → β → Prop} {f : α → γ} {g : β → γ} {l : List α}
    {l' : List β} (h : List.Forall₂ R l l') (hR : ∀ a b, R a b → f a = g b) :
    l.map f = l'.map g := by
  induction h with
  | nil => rfl
  | cons hab _ ih => rw [List.map_cons, List.map_cons, hR _ _ hab, ih]

theorem map_eq_of_zip {α β γ : Type} {f : α → γ} {g : β → γ} {l : List α} {l' : List β}
    (hlength : l.length = l'.length) (h : ∀ pair ∈ l.zip l', f pair.1 = g pair.2) :
    l.map f = l'.map g := by
  have hall : List.Forall₂ (fun a b => f a = g b) l l' :=
    List.forall₂_iff_zip.mpr ⟨hlength, fun hab => h _ hab⟩
  exact map_eq_of_forall₂ hall fun _ _ hab => hab

theorem Bundle.map_nodeAt {γ : Type} (bundle : Bundle) (f : NodeId → γ) :
    (List.range bundle.fields.length).map (fun i => f (bundle.nodeAt i)) = bundle.nodes.map f := by
  apply List.ext_getElem
  · simp
  · intro i hi hi'
    have hnode : i < bundle.nodes.length := by simpa using hi'
    simp only [List.getElem_map, List.getElem_range]
    unfold nodeAt
    rw [List.getD_eq_getElem bundle.nodes 0 hnode]

/-! ### Selections -/

namespace Settled

variable {s : Settled}

/-- The words whose selects are high, combined by or. -/
def chosen (s : Settled) (options : List (NodeId × NodeId)) : Nat :=
  options.foldl (fun word (select, value) =>
    if s.bit select then word ||| s.word value else word) 0

theorem chosen_lt {options : List (NodeId × NodeId)} {w : Nat}
    (h : ∀ option ∈ options, s.word option.2 < Word.count w) : s.chosen options < Word.count w := by
  have hfold : ∀ word, word < Word.count w → options.foldl (fun word (select, value) =>
      if s.bit select then word ||| s.word value else word) word < Word.count w := by
    induction options with
    | nil => intro word hword; exact hword
    | cons option rest ih =>
        intro word hword
        have hrest := ih fun other hother => h other (List.mem_cons_of_mem _ hother)
        obtain ⟨select, value⟩ := option
        rw [List.foldl_cons]
        by_cases hselect : s.bit select = true
        · simp only [hselect, if_true]
          exact hrest _ (Word.or_lt_count hword (h (select, value) (by simp)))
        · simp only [hselect, Bool.false_eq_true, if_false]
          exact hrest _ hword
  exact hfold 0 (Word.count_pos w)

variable {α : Type} {sites : List α} {run value : α → NodeId}

theorem chosen_of_none (h : ∀ site ∈ sites, s.bit (run site) = false) :
    s.chosen (sites.map fun site => (run site, value site)) = 0 := by
  unfold chosen
  induction sites with
  | nil => rfl
  | cons site rest ih =>
      rw [List.map_cons, List.foldl_cons]
      simp only [h site (by simp)]
      exact ih fun other hother => h other (List.mem_cons_of_mem _ hother)

/-- If one site alone is selected, its word is chosen. -/
theorem chosen_of_unique {site : α} (hmem : site ∈ sites) (hrun : s.bit (run site) = true)
    (hunique : ∀ other ∈ sites, s.bit (run other) = true → other = site) :
    s.chosen (sites.map fun site => (run site, value site)) = s.word (value site) := by
  -- The site may stand in the list more than once, so the word so far is zero or that of the site.
  have hfold : ∀ (rest : List α) (word : Nat),
      (∀ other ∈ rest, s.bit (run other) = true → other = site) →
      (word = 0 ∧ site ∈ rest) ∨ word = s.word (value site) →
      (rest.map fun site => (run site, value site)).foldl (fun word (select, value) =>
        if s.bit select then word ||| s.word value else word) word = s.word (value site) := by
    intro rest
    induction rest with
    | nil =>
        intro word _ hword
        rcases hword with ⟨-, hsite⟩ | hword
        · cases hsite
        · exact hword
    | cons other rest ih =>
        intro word hrest hword
        have htail : ∀ other ∈ rest, s.bit (run other) = true → other = site :=
          fun x hx => hrest x (List.mem_cons_of_mem _ hx)
        rw [List.map_cons, List.foldl_cons]
        by_cases hselect : s.bit (run other) = true
        · obtain rfl := hrest other (by simp) hselect
          simp only [hselect, if_true]
          refine ih _ htail (.inr ?_)
          rcases hword with ⟨rfl, -⟩ | rfl
          · exact Nat.zero_or _
          · exact Nat.or_self _
        · simp only [hselect, Bool.false_eq_true, if_false]
          refine ih _ htail (hword.imp_left fun ⟨hzero, hsite⟩ => ⟨hzero, ?_⟩)
          rcases List.mem_cons.mp hsite with rfl | hsite
          · exact absurd hrun hselect
          · exact hsite
  exact hfold sites 0 hunique (.inl ⟨rfl, hmem⟩)

end Settled

namespace Build

theorem ofExcept_ensures {α : Type} (answer : Except Circuit.Fault α) :
    (ofExcept answer : Build α).Ensures fun _ a => answer = .ok a := by
  cases answer with
  | ok a => exact pure_ensures fun _ => rfl
  | error fault => exact throw_ensures fault

theorem expectFields_ensures (bundle : Bundle) (expected : List Field) :
    (ofExcept (bundle.expectFields expected) : Build Unit).Ensures fun _ _ =>
      bundle.fields = expected := by
  refine (ofExcept_ensures _).mono fun s _ hanswer => ?_
  unfold Bundle.expectFields at hanswer
  split at hanswer
  · assumption
  · cases hanswer

theorem constant_ensures (value w : Nat) :
    (constant value w).Ensures fun s id => s.word id = Word.truncate w value := by
  refine bind_ensures (checkWidth_grows w).ensures fun _ => ?_
  refine (shared_ensures (by simp)).mono fun s id hnode _ => ?_
  rw [Settled.word_eq hnode]
  exact Word.truncate_of_lt (Word.truncate_lt w value)

theorem zeros_ensures (fields : List Field) :
    (zeros fields).Ensures fun s b => b.fields = fields ∧ ∀ word ∈ b.nodes.map s.word, word = 0 := by
  have hfield : ∀ field ∈ fields, (do return (field, ← constant 0 field.width) :
      Build (Field × NodeId)).Ensures fun s entry => entry.1 = field ∧ s.word entry.2 = 0 := by
    intro field _
    refine bind_ensures (constant_ensures 0 field.width) fun node => ?_
    refine pure_ensures fun s hzero => ⟨rfl, ?_⟩
    rw [hzero]
    exact Word.truncate_of_lt (Word.count_pos _)
  refine bind_ensures (mapM_ensures hfield) fun entries => pure_ensures fun s hentries => ⟨?_, ?_⟩
  · exact (map_eq_of_forall₂ hentries fun _ _ h => h.1.symm).symm.trans (List.map_id fields)
  · have hwords : entries.map (fun entry => s.word entry.2) = fields.map fun _ => 0 :=
      (map_eq_of_forall₂ hentries fun _ _ h => h.2.symm).symm
    intro word hword
    rw [Bundle.nodes, List.map_map] at hword
    change word ∈ entries.map (fun entry => s.word entry.2) at hword
    rw [hwords] at hword
    obtain ⟨-, -, rfl⟩ := List.mem_map.mp hword
    rfl

/-- Connected bundles carry the same words. -/
theorem driveAll_ensures (target source : Bundle) :
    (driveAll target source).Ensures fun s _ => source.fields = target.fields ∧
      target.nodes.map s.word = source.nodes.map s.word := by
  refine bind_ensures (expectFields_ensures source target.fields) fun _ => ?_
  refine (forM_ensures fun pair _ => drive_ensures pair.1 pair.2).mono fun s _ hdriven hfields => ?_
  refine ⟨hfields, map_eq_of_zip ?_ hdriven⟩
  rw [Bundle.length_nodes, Bundle.length_nodes, hfields]

/-- The words whose selects are high, combined by or. -/
theorem oneHot_ensures (selects values : List NodeId) :
    (oneHot selects values).Ensures fun s id => s.word id = s.chosen (selects.zip values) := by
  unfold oneHot
  by_cases hlength : selects.length = values.length
  swap
  · simp only [ne_eq, hlength, not_false_eq_true, if_true]
    exact throw_ensures _
  simp only [ne_eq, hlength, not_true_eq_false, if_false]
  cases values with
  | nil => exact throw_ensures _
  | cons first rest =>
      refine bind_ensures (width_ensures first) fun common => ?_
      refine bind_ensures (forM_grows (fun _ => matchWidth_grows _ _ _) selects).ensures
        fun _ => ?_
      have hwidths : ∀ value ∈ first :: rest,
          (do matchWidths "one_hot" common (← width value) : Build Unit).Ensures fun s _ =>
            s.circuit.width value = .ok common := by
        intro value _
        refine bind_ensures (width_ensures value) fun w => ?_
        refine (matchWidths_ensures _ _ _).mono fun s _ hmatch hw => ?_
        rw [hw, hmatch]
      refine bind_ensures (forM_ensures hwidths) fun _ => ?_
      refine (push_ensures (by simp)).mono fun s id hnode hvalues _ _ => ?_
      rw [Settled.word_eq hnode]
      refine Word.truncate_of_lt (Settled.chosen_lt fun option hoption => ?_)
      exact Settled.word_lt (hvalues option.2 (List.of_mem_zip hoption).2)

/-- A selection carries in every field what is chosen of that field. -/
theorem select_ensures {α : Type} (fields : List Field) {sites : List α} (hsites : sites ≠ [])
    (run : α → NodeId) (bundle : α → Bundle) :
    (select fields (sites.map run) (sites.map bundle)).Ensures fun s b =>
      b.fields = fields ∧ (∀ site ∈ sites, (bundle site).fields = fields) ∧
        b.nodes.map s.word = (List.range fields.length).map fun i =>
          s.chosen (sites.map fun site => (run site, (bundle site).nodeAt i)) := by
  have hsome : (sites.map bundle).isEmpty = false := by
    cases sites with
    | nil => exact absurd rfl hsites
    | cons => rfl
  have hfields : ((sites.map bundle).forM fun b =>
      (ofExcept (b.expectFields fields) : Build Unit)).Ensures fun _ _ =>
        ∀ site ∈ sites, (bundle site).fields = fields := by
    refine (forM_ensures fun b _ => expectFields_ensures b fields).mono fun s _ hall site hsite => ?_
    exact hall _ (List.mem_map.mpr ⟨site, hsite, rfl⟩)
  have hfield : ∀ entry ∈ fields.zipIdx, (do
      return (entry.1, ← oneHot (sites.map run) ((sites.map bundle).map (·.nodeAt entry.2))) :
        Build (Field × NodeId)).Ensures fun s answer => answer.1 = entry.1 ∧
          s.word answer.2 =
            s.chosen (sites.map fun site => (run site, (bundle site).nodeAt entry.2)) := by
    intro entry _
    refine bind_ensures (oneHot_ensures _ _) fun node => ?_
    refine pure_ensures fun s hword => ⟨rfl, ?_⟩
    rw [hword, List.map_map, List.zip_map']
    rfl
  unfold select
  rw [if_neg (by simp [hsome])]
  refine bind_ensures hfields fun _ => bind_ensures (mapM_ensures hfield) fun entries => ?_
  refine pure_ensures fun s hentries hall => ⟨?_, hall, ?_⟩
  · have hnames : entries.map Prod.fst = fields.zipIdx.map Prod.fst :=
      (map_eq_of_forall₂ hentries fun _ _ h => h.1.symm).symm
    rw [Bundle.fields, hnames, List.zipIdx_map_fst]
  · have hwords := (map_eq_of_forall₂ hentries fun _ _ h => h.2.symm).symm
    rw [Bundle.nodes, List.map_map]
    refine Eq.trans hwords ?_
    rw [List.range_eq_range', ← List.zipIdx_map_snd 0 fields, List.map_map]
    rfl

end Build
end Interlock
