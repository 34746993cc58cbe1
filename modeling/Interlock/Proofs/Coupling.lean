/-
Declarations about pairs of actions, in any order.

Whether such declarations are all accepted does not depend on their order: each of them has to name
actions that are there, to agree with the preferences on record before the first of them, and to
agree with every other one; and agreeing is mutual.  Nor does it matter by which end a conflict is
given.  What is on record in the end is, up to the direction of conflicts, what was on record
before and what each of them adds.
-/
import Mathlib.Data.List.Forall2
import Interlock.Proofs.Contention.CallPath
import Interlock.Proofs.Declarations

namespace Interlock

/-- A declaration about pairs of actions. -/
inductive Coupling where
  | conflict (a b : ActionId) (priority : Priority)
  | before (a b : ActionId)
  | simultaneous (a : ActionId) (others : List ActionId)
  | alternatives (a : ActionId) (others : List ActionId)
  | acknowledge (a b : ActionId)
  deriving DecidableEq, Repr

/-- The relation as the other end sees it. -/
def Relation.turned (relation : Relation) : Relation :=
  ⟨relation.finish, relation.start, relation.kind, relation.priority.reversed⟩

namespace Relation

theorem turned_turned (relation : Relation) : relation.turned.turned = relation := by
  obtain ⟨start, finish, kind, priority⟩ := relation
  cases priority <;> rfl

theorem turned_pair (relation : Relation) : relation.turned.pair = relation.pair :=
  ordered_comm relation.finish relation.start

theorem turned_preference? (relation : Relation) :
    relation.turned.preference? = relation.preference? := by
  obtain ⟨start, finish, kind, priority⟩ := relation
  cases priority <;> rfl

/-- The two relations do not prefer different ones of the same two actions. -/
def Agrees (relation other : Relation) : Prop :=
  relation.pair = other.pair → ∀ preference preference', relation.preference? = some preference →
    other.preference? = some preference' → preference.1 = preference'.1

end Relation

namespace Couplings

variable {couplings : Couplings} {roster : Roster} {relation other : Relation}

/-- The couplings say the same, in whatever order and direction. -/
structure Alike (couplings couplings' : Couplings) : Prop where
  relations : ∀ relation ∈ couplings.relations,
    relation ∈ couplings'.relations ∨ relation.turned ∈ couplings'.relations
  relations' : ∀ relation ∈ couplings'.relations,
    relation ∈ couplings.relations ∨ relation.turned ∈ couplings.relations
  simultaneous : ∀ pair, pair ∈ couplings.simultaneous ↔ pair ∈ couplings'.simultaneous
  independent : ∀ pair, pair ∈ couplings.independent ↔ pair ∈ couplings'.independent

theorem Alike.symm {couplings' : Couplings} (h : couplings.Alike couplings') :
    couplings'.Alike couplings :=
  ⟨h.relations', h.relations, fun pair => (h.simultaneous pair).symm,
    fun pair => (h.independent pair).symm⟩

/-- The action that a preference on record for a pair prefers. -/
def preferredOf (couplings : Couplings) (pair : ActionId × ActionId) : Option ActionId :=
  couplings.relations.findSome? fun relation =>
    if relation.pair = pair then relation.preference?.map Prod.fst else none

theorem contradicts_eq_false_iff : couplings.contradicts relation = false ↔
    ∀ preference, relation.preference? = some preference →
      ∀ earlier, couplings.preferredOf relation.pair = some earlier → preference.1 = earlier := by
  have hsame : couplings.preferred? relation.start relation.finish =
      couplings.preferredOf relation.pair := rfl
  unfold contradicts
  rw [hsame]
  cases relation.preference? with
  | none => simp
  | some preference =>
      cases couplings.preferredOf relation.pair with
      | none => simp
      | some earlier => simp

theorem turned_contradicts :
    couplings.contradicts relation.turned = couplings.contradicts relation := by
  have h : couplings.contradicts relation.turned = false ↔
      couplings.contradicts relation = false := by
    rw [contradicts_eq_false_iff, contradicts_eq_false_iff, relation.turned_pair,
      relation.turned_preference?]
  exact Bool.eq_iff_iff.mpr (by simpa using not_congr h)

/-- A preference that is added last is found last. -/
theorem preferredOf_append (pair : ActionId × ActionId) :
    ({ couplings with relations := couplings.relations ++ [other] } : Couplings).preferredOf pair =
      (couplings.preferredOf pair).or
        (if other.pair = pair then other.preference?.map Prod.fst else none) := by
  unfold preferredOf
  dsimp only
  rw [List.findSome?_append]
  simp

/-- What agrees with the record and is added to it is agreed with by what agreed with the record
and agrees with the addition. -/
theorem contradicts_append (hother : couplings.contradicts other = false) :
    ({ couplings with relations := couplings.relations ++ [other] } : Couplings).contradicts
        relation = false ↔
      couplings.contradicts relation = false ∧ other.Agrees relation := by
  rw [contradicts_eq_false_iff] at *
  rw [contradicts_eq_false_iff]
  simp only [preferredOf_append]
  constructor
  · intro h
    refine ⟨fun preference hpreference earlier hearlier => ?_, fun hpair p p' hp hp' => ?_⟩
    · exact h preference hpreference earlier (by rw [hearlier]; rfl)
    · cases hfound : couplings.preferredOf relation.pair with
      | some earlier =>
          have hsecond := h p' hp' earlier (by rw [hfound]; rfl)
          rw [hother p hp earlier (hpair ▸ hfound), hsecond]
      | none => exact (h p' hp' p.1 (by simp [hfound, hpair, hp])).symm
  · rintro ⟨hrecord, hagrees⟩ preference hpreference earlier hearlier
    cases hfound : couplings.preferredOf relation.pair with
    | some found =>
        rw [hfound] at hearlier
        cases hearlier
        exact hrecord preference hpreference earlier hfound
    | none =>
        rw [hfound, Option.none_or] at hearlier
        by_cases hpair : other.pair = relation.pair
        · rw [if_pos hpair] at hearlier
          obtain ⟨preference', hpreference', rfl⟩ := Option.map_eq_some_iff.mp hearlier
          exact (hagrees hpair _ _ hpreference' hpreference).symm
        · rw [if_neg hpair] at hearlier
          cases hearlier

theorem contradicts_congr {couplings' : Couplings} (h : couplings.relations = couplings'.relations) :
    couplings.contradicts relation = couplings'.contradicts relation := by
  unfold contradicts preferred?
  rw [h]

theorem relate_eq_ok_iff {couplings' : Couplings} :
    couplings.relate roster relation = .ok couplings' ↔
      (relation.start < roster.size ∧ relation.finish < roster.size) ∧
        couplings.contradicts relation = false ∧
        couplings' = { couplings with relations := couplings.relations ++ [relation] } := by
  unfold relate
  rw [bind_check_eq_ok_iff, bind_check_eq_ok_iff, Reach.check_eq_ok_iff, Reach.check_eq_ok_iff,
    ← and_assoc]
  refine and_congr_right fun _ => ?_
  by_cases h : couplings.contradicts relation = true
  · simp [h, throw, throwThe, MonadExceptOf.throw, bind, Except.bind]
  · simp [h, pure, Except.pure, eq_comm]

theorem join_eq_ok_iff {couplings' : Couplings} {a : ActionId} {others : List ActionId} :
    couplings.join roster a others = .ok couplings' ↔ (∀ x ∈ a :: others, x < roster.size) ∧
      couplings' =
        { couplings with simultaneous := couplings.simultaneous ++ others.map (a, ·) } := by
  unfold join
  rw [bind_check_eq_ok_iff, forM_eq_ok_iff]
  simp only [Reach.check_eq_ok_iff]
  simp only [pure, Except.pure, Except.ok.injEq, eq_comm]

theorem offer_eq_ok_iff {couplings' : Couplings} {a : ActionId} {others : List ActionId} :
    couplings.offer roster a others = .ok couplings' ↔ (∀ x ∈ a :: others, x < roster.size) ∧
      couplings' =
        ({ couplings with simultaneous := couplings.simultaneous ++ others.map (a, ·) } :
          Couplings).separate others := by
  unfold offer
  rw [bind_eq_ok_iff]
  constructor
  · rintro ⟨joined, hjoin, hapart⟩
    rw [keepApart_of_join hjoin] at hapart
    obtain ⟨hknown, rfl⟩ := join_eq_ok_iff.mp hjoin
    exact ⟨hknown, (Except.ok.inj hapart).symm⟩
  · rintro ⟨hknown, rfl⟩
    have hjoin : couplings.join roster a others = .ok { couplings with
        simultaneous := couplings.simultaneous ++ others.map (a, ·) } :=
      join_eq_ok_iff.mpr ⟨hknown, rfl⟩
    exact ⟨_, hjoin, keepApart_of_join hjoin⟩

theorem acknowledge_eq_ok_iff {couplings' : Couplings} {a b : ActionId} :
    couplings.acknowledge roster a b = .ok couplings' ↔ (a < roster.size ∧ b < roster.size) ∧
      couplings' = { couplings with acknowledged := ordered a b :: couplings.acknowledged } := by
  unfold acknowledge
  rw [bind_check_eq_ok_iff, bind_check_eq_ok_iff, Reach.check_eq_ok_iff, Reach.check_eq_ok_iff,
    ← and_assoc]
  simp only [pure, Except.pure, Except.ok.injEq, eq_comm]

end Couplings

namespace Coupling

/-- Makes the declaration. -/
def declare : Coupling → Declare Unit
  | conflict a b priority => Declare.conflict a b priority
  | before a b => Declare.before a b
  | simultaneous a others => Declare.simultaneous a others
  | alternatives a others => Declare.alternatives a others
  | acknowledge a b => Declare.acknowledge a b

/-- A conflict, given by the other end. -/
def turned : Coupling → Coupling
  | conflict a b priority => conflict b a priority.reversed
  | before a b => before a b
  | simultaneous a others => simultaneous a others
  | alternatives a others => alternatives a others
  | acknowledge a b => acknowledge a b

/-- The actions that a declaration names. -/
def actions : Coupling → List ActionId
  | conflict a b _ => [a, b]
  | before a b => [a, b]
  | simultaneous a others => a :: others
  | alternatives a others => a :: others
  | acknowledge a b => [a, b]

/-- The relation that a declaration adds. -/
def relation? : Coupling → Option Relation
  | conflict a b priority => some (.conflict a b priority)
  | before a b => some (.before a b)
  | _ => none

/-- The pairs that a declaration ties together. -/
def tied : Coupling → List (ActionId × ActionId)
  | simultaneous a others => others.map (a, ·)
  | alternatives a others => others.map (a, ·)
  | _ => []

/-- The actions of which a declaration keeps every two apart. -/
def choices : Coupling → List ActionId
  | alternatives _ others => others
  | _ => []

/-- What the couplings become. -/
def addTo (coupling : Coupling) (couplings : Couplings) : Couplings where
  relations := couplings.relations ++ coupling.relation?.toList
  simultaneous := couplings.simultaneous ++ coupling.tied
  independent := (couplings.separate coupling.choices).independent
  acknowledged := match coupling with
    | acknowledge a b => ordered a b :: couplings.acknowledged
    | _ => couplings.acknowledged

/-- The declaration names actions that are there and agrees with the preferences on record. -/
def Admissible (coupling : Coupling) (roster : Roster) (couplings : Couplings) : Prop :=
  (∀ a ∈ coupling.actions, a < roster.size) ∧
    ∀ relation, coupling.relation? = some relation → couplings.contradicts relation = false

/-- What two declarations prefer does not differ. -/
def Agrees (coupling other : Coupling) : Prop :=
  ∀ relation relation', coupling.relation? = some relation → other.relation? = some relation' →
    relation.Agrees relation'

variable {coupling other : Coupling} {roster : Roster} {couplings : Couplings}
  {d d' : Declarations}

/-- The change that a declaration makes, or refuses to make. -/
def change : Coupling → Couplings → Roster → Except Fault Couplings
  | conflict a b priority => (·.relate · (.conflict a b priority))
  | before a b => (·.relate · (.before a b))
  | simultaneous a others => (·.join · a others)
  | alternatives a others => (·.offer · a others)
  | acknowledge a b => (·.acknowledge · a b)

theorem declare_eq (coupling : Coupling) : coupling.declare = Declare.couple coupling.change := by
  cases coupling with
  | alternatives a others => exact Declare.alternatives_eq a others
  | _ => rfl

/-- Everything that a declaration does to the couplings, and when. -/
theorem change_eq_ok_iff {couplings' : Couplings} :
    coupling.change couplings roster = .ok couplings' ↔
      coupling.Admissible roster couplings ∧ couplings' = coupling.addTo couplings := by
  unfold Admissible addTo
  cases coupling with
  | conflict a b priority =>
      show couplings.relate roster (.conflict a b priority) = .ok couplings' ↔ _
      rw [Couplings.relate_eq_ok_iff]
      simp [actions, relation?, tied, choices, Relation.conflict, Couplings.separate, pairs,
        and_assoc]
  | before a b =>
      show couplings.relate roster (.before a b) = .ok couplings' ↔ _
      rw [Couplings.relate_eq_ok_iff]
      simp [actions, relation?, tied, choices, Relation.before, Couplings.separate, pairs,
        and_assoc]
  | simultaneous a others =>
      show couplings.join roster a others = .ok couplings' ↔ _
      rw [Couplings.join_eq_ok_iff]
      simp [actions, relation?, tied, choices, Couplings.separate, pairs]
  | alternatives a others =>
      show couplings.offer roster a others = .ok couplings' ↔ _
      rw [Couplings.offer_eq_ok_iff]
      simp [actions, relation?, tied, choices, Couplings.separate]
  | acknowledge a b =>
      show couplings.acknowledge roster a b = .ok couplings' ↔ _
      rw [Couplings.acknowledge_eq_ok_iff]
      simp [actions, relation?, tied, choices, Couplings.separate, pairs]

theorem run_declare (coupling : Coupling) (d : Declarations) :
    coupling.declare.run.run d = match coupling.change d.plan.couplings d.plan.roster with
      | .ok couplings => (.ok (), { d with plan := { d.plan with couplings } })
      | .error fault => (.error fault, d) := by
  rw [declare_eq]
  exact Declare.run_couple coupling.change d

/-! ### Many declarations -/

/-- What is on record agrees with an addition, and the addition with what agrees with the record. -/
theorem admissible_addTo (h : coupling.Admissible roster couplings) :
    other.Admissible roster (coupling.addTo couplings) ↔
      other.Admissible roster couplings ∧ coupling.Agrees other := by
  unfold Admissible Agrees
  cases hrelation : coupling.relation? with
  | none =>
      have hsame : (coupling.addTo couplings).relations = couplings.relations := by
        simp [addTo, hrelation]
      simp [Couplings.contradicts_congr hsame]
  | some relation =>
      have hadded : ∀ relation', (coupling.addTo couplings).contradicts relation' = false ↔
          couplings.contradicts relation' = false ∧ relation.Agrees relation' := by
        intro relation'
        rw [← Couplings.contradicts_append (h.2 relation hrelation)]
        exact iff_of_eq (congrArg (· = false)
          (Couplings.contradicts_congr (by simp [addTo, hrelation])))
      simp only [hadded]
      constructor
      · rintro ⟨hknown, hagrees⟩
        refine ⟨⟨hknown, fun relation' h' => (hagrees relation' h').1⟩, ?_⟩
        rintro _ relation' ⟨⟩ h'
        exact (hagrees relation' h').2
      · rintro ⟨⟨hknown, hrecord⟩, hagrees⟩
        exact ⟨hknown, fun relation' h' => ⟨hrecord relation' h', hagrees _ _ rfl h'⟩⟩

/-- Makes all declarations, one after the other, up to the first that is refused. -/
def declareAll (l : List Coupling) : Declare Unit := l.forM declare

/-- Every declaration would be accepted alone, and no two prefer differently. -/
def Acceptable (roster : Roster) (couplings : Couplings) (l : List Coupling) : Prop :=
  (∀ coupling ∈ l, coupling.Admissible roster couplings) ∧ l.Pairwise Agrees

theorem acceptable_cons {l : List Coupling} (h : coupling.Admissible roster couplings) :
    Acceptable roster couplings (coupling :: l) ↔
      Acceptable roster (coupling.addTo couplings) l := by
  unfold Acceptable
  simp only [List.forall_mem_cons, List.pairwise_cons, admissible_addTo h]
  constructor
  · rintro ⟨⟨-, hall⟩, hfirst, hrest⟩
    exact ⟨fun other hother => ⟨hall other hother, hfirst other hother⟩, hrest⟩
  · rintro ⟨hall, hrest⟩
    exact ⟨⟨h, fun other hother => (hall other hother).1⟩,
      fun other hother => (hall other hother).2, hrest⟩

theorem run_declareAll_cons (l : List Coupling) (d : Declarations) :
    (declareAll (coupling :: l)).run.run d =
      match coupling.change d.plan.couplings d.plan.roster with
        | .ok couplings => (declareAll l).run.run { d with plan := { d.plan with couplings } }
        | .error fault => (.error fault, d) := by
  show (coupling.declare >>= fun _ => l.forM declare).run.run d = _
  rw [run_bind, run_declare]
  cases coupling.change d.plan.couplings d.plan.roster with
  | ok couplings => rfl
  | error fault => rfl

/-- Declarations are all accepted if they are acceptable. -/
theorem declareAll_isOk_iff (l : List Coupling) : ∀ d : Declarations,
    ((declareAll l).run.run d).1.isOk = true ↔ Acceptable d.plan.roster d.plan.couplings l := by
  induction l with
  | nil =>
      intro d
      exact ⟨fun _ => ⟨fun _ hnil => absurd hnil (by simp), .nil⟩, fun _ => rfl⟩
  | cons coupling rest ih =>
      intro d
      rw [run_declareAll_cons]
      cases hchange : coupling.change d.plan.couplings d.plan.roster with
      | ok couplings =>
          obtain ⟨hadmissible, rfl⟩ := change_eq_ok_iff.mp hchange
          rw [acceptable_cons hadmissible]
          exact ih _
      | error fault =>
          constructor
          · intro h
            cases h
          · intro hacceptable
            have haccepted := change_eq_ok_iff.mpr ⟨hacceptable.1 coupling (by simp), rfl⟩
            rw [hchange] at haccepted
            cases haccepted

/-- What is on record after all declarations. -/
theorem declareAll_eq_ok (l : List Coupling) : ∀ d : Declarations,
    (declareAll l).run.run d = (.ok (), d') → d' =
      { d with plan := { d.plan with
        couplings := l.foldl (fun couplings coupling => coupling.addTo couplings)
          d.plan.couplings } } := by
  induction l with
  | nil =>
      intro d h
      cases h
      rfl
  | cons coupling rest ih =>
      intro d h
      rw [run_declareAll_cons] at h
      cases hchange : coupling.change d.plan.couplings d.plan.roster with
      | ok couplings =>
          obtain ⟨-, rfl⟩ := change_eq_ok_iff.mp hchange
          rw [hchange] at h
          exact ih _ h
      | error fault =>
          rw [hchange] at h
          cases h

theorem mem_relations_foldl {relation : Relation} (l : List Coupling) : ∀ couplings : Couplings,
    relation ∈ (l.foldl (fun couplings coupling => coupling.addTo couplings)
        couplings).relations ↔
      relation ∈ couplings.relations ∨ ∃ coupling ∈ l, coupling.relation? = some relation := by
  induction l with
  | nil => intro couplings; simp
  | cons coupling rest ih =>
      intro couplings
      rw [List.foldl_cons, ih]
      simp [addTo, or_assoc]

theorem mem_simultaneous_foldl {pair : ActionId × ActionId} (l : List Coupling) :
    ∀ couplings : Couplings, pair ∈ (l.foldl (fun couplings coupling => coupling.addTo couplings)
        couplings).simultaneous ↔
      pair ∈ couplings.simultaneous ∨ ∃ coupling ∈ l, pair ∈ coupling.tied := by
  induction l with
  | nil => intro couplings; simp
  | cons coupling rest ih =>
      intro couplings
      rw [List.foldl_cons, ih]
      simp [addTo, or_assoc]

theorem mem_separate {actions : List ActionId} {pair : ActionId × ActionId} :
    pair ∈ (couplings.separate actions).independent ↔ pair ∈ couplings.independent ∨
      ∃ x y, (x, y) ∈ pairs actions ∧ x ≠ y ∧ pair = ordered x y := by
  unfold Couplings.separate
  dsimp only
  rw [Couplings.mem_foldl_insert]
  simp only [List.mem_filter, bne_iff_ne, and_assoc]

theorem mem_independent_foldl {pair : ActionId × ActionId} (l : List Coupling) :
    ∀ couplings : Couplings, pair ∈ (l.foldl (fun couplings coupling => coupling.addTo couplings)
        couplings).independent ↔
      pair ∈ couplings.independent ∨ ∃ coupling ∈ l, ∃ x y, (x, y) ∈ pairs coupling.choices ∧
        x ≠ y ∧ pair = ordered x y := by
  induction l with
  | nil => intro couplings; simp
  | cons coupling rest ih =>
      intro couplings
      rw [List.foldl_cons, ih, List.exists_mem_cons_iff, ← or_assoc]
      exact or_congr_left mem_separate

/-! ### Rearranged declarations -/

/-- The declarations are the same, up to the end that a conflict is given by. -/
def Same (coupling other : Coupling) : Prop := other = coupling ∨ other = coupling.turned

/-- The same declarations in another order, some conflicts given by the other end. -/
def Rearranged (l l' : List Coupling) : Prop :=
  ∃ reordered, l.Perm reordered ∧ List.Forall₂ Same reordered l'

theorem turned_turned (coupling : Coupling) : coupling.turned.turned = coupling := by
  cases coupling with
  | conflict a b priority => cases priority <;> rfl
  | _ => rfl

theorem Same.symm (h : coupling.Same other) : other.Same coupling := by
  rcases h with rfl | rfl
  · exact .inl rfl
  · exact .inr coupling.turned_turned.symm

/-- The relation that a declaration adds is the same, or turned. -/
theorem Same.relation? (h : coupling.Same other) : other.relation? = coupling.relation? ∨
    other.relation? = coupling.relation?.map Relation.turned := by
  rcases h with rfl | rfl
  · exact .inl rfl
  · cases coupling with
    | conflict a b priority => exact .inr rfl
    | _ => exact .inl rfl

theorem Same.tied_eq (h : coupling.Same other) : other.tied = coupling.tied := by
  rcases h with rfl | rfl
  · rfl
  · cases coupling <;> rfl

theorem Same.choices_eq (h : coupling.Same other) : other.choices = coupling.choices := by
  rcases h with rfl | rfl
  · rfl
  · cases coupling <;> rfl

theorem Same.mem_actions (h : coupling.Same other) {a : ActionId} :
    a ∈ other.actions ↔ a ∈ coupling.actions := by
  rcases h with rfl | rfl
  · rfl
  · cases coupling with
    | conflict x y priority => simp [turned, actions, or_comm]
    | _ => rfl

/-- The direction does not matter to what is on record. -/
theorem Same.admissible (h : coupling.Same other)
    (hadmissible : coupling.Admissible roster couplings) : other.Admissible roster couplings := by
  refine ⟨fun a ha => hadmissible.1 a (h.mem_actions.mp ha), fun relation hrelation => ?_⟩
  rcases h.relation? with hsame | hturned
  · exact hadmissible.2 relation (hsame ▸ hrelation)
  · rw [hturned] at hrelation
    obtain ⟨original, horiginal, rfl⟩ := Option.map_eq_some_iff.mp hrelation
    rw [Couplings.turned_contradicts]
    exact hadmissible.2 original horiginal

theorem Agrees.symm (h : coupling.Agrees other) : other.Agrees coupling :=
  fun relation relation' hrelation hrelation' hpair preference preference' hp hp' =>
    (h relation' relation hrelation' hrelation hpair.symm preference' preference hp' hp).symm

theorem Same.agrees {third : Coupling} (h : coupling.Same other) (hagrees : coupling.Agrees third) :
    other.Agrees third := by
  intro relation relation' hrelation hrelation'
  rcases h.relation? with hsame | hturned
  · exact hagrees relation relation' (hsame ▸ hrelation) hrelation'
  · rw [hturned] at hrelation
    obtain ⟨original, horiginal, rfl⟩ := Option.map_eq_some_iff.mp hrelation
    unfold Relation.Agrees
    rw [original.turned_pair, original.turned_preference?]
    exact hagrees original relation' horiginal hrelation'

theorem exists_same {l l' : List Coupling} (h : List.Forall₂ Same l l') :
    ∀ other ∈ l', ∃ coupling ∈ l, coupling.Same other := by
  induction h with
  | nil => intro other hother; cases hother
  | cons hsame _ ih =>
      intro other hother
      rcases List.mem_cons.mp hother with rfl | hother
      · exact ⟨_, by simp, hsame⟩
      · obtain ⟨coupling, hcoupling, hsame'⟩ := ih other hother
        exact ⟨coupling, List.mem_cons_of_mem _ hcoupling, hsame'⟩

theorem acceptable_of_same {l l' : List Coupling} (h : List.Forall₂ Same l l')
    (hacceptable : Acceptable roster couplings l) : Acceptable roster couplings l' := by
  refine ⟨fun other hother => ?_, ?_⟩
  · obtain ⟨coupling, hcoupling, hsame⟩ := exists_same h other hother
    exact hsame.admissible (hacceptable.1 coupling hcoupling)
  · have hagrees := hacceptable.2
    clear hacceptable
    induction h with
    | nil => exact .nil
    | cons hsame hrest ih =>
        obtain ⟨hfirst, hpairwise⟩ := List.pairwise_cons.mp hagrees
        refine List.pairwise_cons.mpr ⟨fun other hother => ?_, ih hpairwise⟩
        obtain ⟨coupling, hcoupling, hsame'⟩ := exists_same hrest other hother
        exact (hsame'.agrees (hsame.agrees (hfirst coupling hcoupling)).symm).symm

theorem flip_same {l l' : List Coupling} (h : List.Forall₂ Same l l') : List.Forall₂ Same l' l :=
  (h.imp fun _ _ hsame => hsame.symm).flip

/-- **Whether declarations are all accepted does not depend on their order**, nor on the end that a
conflict is given by. -/
theorem Rearranged.acceptable_iff {l l' : List Coupling} (h : Rearranged l l') :
    Acceptable roster couplings l ↔ Acceptable roster couplings l' := by
  obtain ⟨reordered, hperm, hsame⟩ := h
  have hreordered : Acceptable roster couplings l ↔ Acceptable roster couplings reordered := by
    unfold Acceptable
    rw [hperm.pairwise_iff Agrees.symm]
    simp only [hperm.mem_iff]
  rw [hreordered]
  exact ⟨acceptable_of_same hsame, acceptable_of_same (flip_same hsame)⟩

/-- What one of the declarations does, one of the rearranged declarations does. -/
theorem Rearranged.exists_iff {l l' : List Coupling} (h : Rearranged l l')
    {P : Coupling → Prop} (hP : ∀ coupling other, coupling.Same other → P coupling → P other) :
    (∃ coupling ∈ l, P coupling) ↔ ∃ other ∈ l', P other := by
  obtain ⟨reordered, hperm, hsame⟩ := h
  simp only [hperm.mem_iff]
  constructor
  · rintro ⟨coupling, hcoupling, hp⟩
    obtain ⟨other, hother, hsame'⟩ := exists_same (flip_same hsame) coupling hcoupling
    exact ⟨other, hother, hP _ _ hsame'.symm hp⟩
  · rintro ⟨other, hother, hp⟩
    obtain ⟨coupling, hcoupling, hsame'⟩ := exists_same hsame other hother
    exact ⟨coupling, hcoupling, hP _ _ hsame'.symm hp⟩

/-- The declaration adds the relation, in one direction or the other. -/
def Relates (relation : Relation) (coupling : Coupling) : Prop :=
  coupling.relation? = some relation ∨ coupling.relation? = some relation.turned

theorem Same.relates {relation : Relation} (h : coupling.Same other)
    (hrelates : Relates relation coupling) : Relates relation other := by
  unfold Relates
  rcases h.relation? with heq | heq
  · rw [heq]
    exact hrelates
  · rw [heq]
    rcases hrelates with hrelation | hrelation
    · exact .inr (by rw [hrelation]; rfl)
    · exact .inl (by rw [hrelation, Option.map_some, relation.turned_turned])

/-- What rearranged declarations leave on record is alike. -/
theorem Rearranged.alike {l l' : List Coupling} (h : Rearranged l l') (couplings : Couplings) :
    Couplings.Alike (l.foldl (fun couplings coupling => coupling.addTo couplings) couplings)
      (l'.foldl (fun couplings coupling => coupling.addTo couplings) couplings) := by
  have hside : ∀ {l l' : List Coupling}, (∀ relation, (∃ coupling ∈ l, Relates relation coupling) →
      ∃ other ∈ l', Relates relation other) → ∀ relation,
        (relation ∈ couplings.relations ∨ ∃ coupling ∈ l, coupling.relation? = some relation) →
        (relation ∈ couplings.relations ∨ ∃ other ∈ l', other.relation? = some relation) ∨
          (relation.turned ∈ couplings.relations ∨
            ∃ other ∈ l', other.relation? = some relation.turned) := by
    rintro l l' hrelates relation (hrelation | ⟨coupling, hcoupling, hrelation⟩)
    · exact .inl (.inl hrelation)
    · obtain ⟨other, hother, hfound | hfound⟩ :=
        hrelates relation ⟨coupling, hcoupling, .inl hrelation⟩
      · exact .inl (.inr ⟨other, hother, hfound⟩)
      · exact .inr (.inr ⟨other, hother, hfound⟩)
  constructor
  · intro relation hrelation
    simp only [mem_relations_foldl] at *
    exact hside (fun r => (h.exists_iff fun _ _ => Same.relates).mp) relation hrelation
  · intro relation hrelation
    simp only [mem_relations_foldl] at *
    exact hside (fun r => (h.exists_iff fun _ _ => Same.relates).mpr) relation hrelation
  · intro pair
    simp only [mem_simultaneous_foldl]
    exact or_congr_right (h.exists_iff fun _ _ hsame htied => hsame.tied_eq ▸ htied)
  · intro pair
    simp only [mem_independent_foldl]
    exact or_congr_right (h.exists_iff fun _ _ hsame hchoices => hsame.choices_eq ▸ hchoices)

end Coupling
end Interlock
