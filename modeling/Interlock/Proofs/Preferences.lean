/-
Preferences on record.

Which of two actions is preferred can be said in several ways: by a conflict that prefers its left
end, by one that prefers its right end and is given the other way round, and by an order.  However
it is said, and whichever declarations are refused on the way, no two relations on record prefer
different ones of the same two actions.  That is why it does not matter which of them a lookup
comes upon, and why a declaration is refused for what it prefers exactly if the other action is
preferred by some relation on record.

The relations are the only record.  A table with one entry for each pair, filled in as relations are
accepted, has the same entries as the lookup and refuses the same relations.
-/
import Interlock.Proofs.Refused

namespace Interlock

/-! ### What relations prefer -/

namespace Relation

variable {relation other : Relation} {p q x : ActionId}

/-- The preferred action. -/
def prefers? (relation : Relation) : Option ActionId := relation.preference?.map Prod.fst

theorem prefers?_eq (h : relation.preference? = some (p, q)) : relation.prefers? = some p := by
  rw [prefers?, h]
  rfl

theorem exists_preference? (h : relation.prefers? = some p) :
    ∃ q, relation.preference? = some (p, q) := by
  obtain ⟨⟨p', q⟩, hpreference, rfl⟩ := Option.map_eq_some_iff.mp h
  exact ⟨q, hpreference⟩

/-- The preferred action and the one that yields are the two ends. -/
theorem pair_of_preference? (h : relation.preference? = some (p, q)) :
    relation.pair = ordered p q := by
  obtain ⟨start, finish, kind, priority⟩ := relation
  cases priority with
  | undefined => cases h
  | left =>
      cases h
      rfl
  | right =>
      cases h
      exact ordered_comm start finish

/-- What another relation between the same two prefers is one of them. -/
theorem prefers?_cases (h : relation.preference? = some (p, q)) (hpair : other.pair = relation.pair)
    (hother : other.prefers? = some x) : x = p ∨ x = q := by
  obtain ⟨y, hpreference⟩ := exists_preference? hother
  rw [pair_of_preference? h, pair_of_preference? hpreference] at hpair
  exact (ordered_eq_iff.mp hpair).imp (·.1) (·.1)

theorem agrees_iff : relation.Agrees other ↔ (relation.pair = other.pair →
    ∀ p x, relation.prefers? = some p → other.prefers? = some x → p = x) := by
  refine imp_congr_right fun _ => ⟨fun h p x hp hx => ?_, fun h preference preference' hp hp' => ?_⟩
  · obtain ⟨q, hpreference⟩ := exists_preference? hp
    obtain ⟨y, hpreference'⟩ := exists_preference? hx
    exact h _ _ hpreference hpreference'
  · exact h _ _ (prefers?_eq hp) (prefers?_eq hp')

theorem agrees_self (relation : Relation) : relation.Agrees relation := by
  rintro - preference preference' hp hp'
  rw [hp] at hp'
  rw [Option.some.inj hp']

end Relation

/-! ### Records that agree -/

namespace Couplings

variable {couplings : Couplings} {relation : Relation} {pair : ActionId × ActionId}
  {p q : ActionId}

/-- The couplings with one relation more. -/
def adding (couplings : Couplings) (relation : Relation) : Couplings :=
  { couplings with relations := couplings.relations ++ [relation] }

/-- A relation on record between the two prefers the action. -/
def Prefers (couplings : Couplings) (pair : ActionId × ActionId) (p : ActionId) : Prop :=
  ∃ relation ∈ couplings.relations, relation.pair = pair ∧ relation.prefers? = some p

/-- No two relations on record prefer different ones of the same two actions. -/
def Consistent (couplings : Couplings) : Prop :=
  ∀ relation ∈ couplings.relations, ∀ other ∈ couplings.relations, relation.Agrees other

theorem empty_consistent : empty.Consistent := nofun

theorem prefers_of_preferredOf (h : couplings.preferredOf pair = some p) :
    couplings.Prefers pair p := by
  obtain ⟨relation, hrelation, hfound⟩ := List.exists_of_findSome?_eq_some h
  split at hfound
  · rename_i hpair
    exact ⟨relation, hrelation, hpair, hfound⟩
  · cases hfound

/-- The lookup answers what the relations on record prefer, whichever it comes upon. -/
theorem Consistent.preferredOf_eq_some_iff (h : couplings.Consistent) :
    couplings.preferredOf pair = some p ↔ couplings.Prefers pair p := by
  refine ⟨prefers_of_preferredOf, fun ⟨relation, hrelation, hpair, hp⟩ => ?_⟩
  cases hfound : couplings.preferredOf pair with
  | none =>
      have hnone := List.findSome?_eq_none_iff.mp hfound relation hrelation
      rw [if_pos hpair] at hnone
      cases hnone.symm.trans hp
  | some x =>
      obtain ⟨other, hother, hpair', hx⟩ := prefers_of_preferredOf hfound
      have hagrees := Relation.agrees_iff.mp (h other hother relation hrelation)
      rw [hagrees (hpair'.trans hpair.symm) x p hx hp]

/-- A relation is at odds with the record if the record prefers the action that it lets yield. -/
theorem Consistent.contradicts_iff (h : couplings.Consistent)
    (hpreference : relation.preference? = some (p, q)) :
    couplings.contradicts relation = true ↔ p ≠ q ∧ couplings.Prefers relation.pair q := by
  have hagrees : couplings.contradicts relation = false ↔
      ∀ x, couplings.Prefers relation.pair x → p = x := by
    rw [contradicts_eq_false_iff, hpreference]
    simp [h.preferredOf_eq_some_iff]
  rw [← Bool.not_eq_false, hagrees]
  constructor
  · intro hodd
    obtain ⟨x, hodd⟩ := not_forall.mp hodd
    obtain ⟨hx, hne⟩ := Classical.not_imp.mp hodd
    obtain ⟨other, -, hpair, hother⟩ := id hx
    rcases Relation.prefers?_cases hpreference hpair hother with rfl | rfl
    · exact absurd rfl hne
    · exact ⟨hne, hx⟩
  · rintro ⟨hne, hq⟩ hagrees
    exact hne (hagrees q hq)

/-- What is not at odds with the record may be added to it. -/
theorem Consistent.adding (h : couplings.Consistent)
    (hrelation : couplings.contradicts relation = false) :
    (couplings.adding relation).Consistent := by
  have hnew : ∀ other ∈ couplings.relations, relation.Agrees other := by
    intro other hother
    refine Relation.agrees_iff.mpr fun hpair p x hp hx => ?_
    obtain ⟨q, hpreference⟩ := Relation.exists_preference? hp
    exact contradicts_eq_false_iff.mp hrelation _ hpreference x
      (h.preferredOf_eq_some_iff.mpr ⟨other, hother, hpair.symm, hx⟩)
  intro first hfirst second hsecond
  rcases List.mem_append.mp hfirst with hfirst | hfirst
  · rcases List.mem_append.mp hsecond with hsecond | hsecond
    · exact h first hfirst second hsecond
    · rw [List.mem_singleton.mp hsecond]
      exact fun hpair p x hp hx => (hnew first hfirst hpair.symm x p hx hp).symm
  · rw [List.mem_singleton.mp hfirst]
    rcases List.mem_append.mp hsecond with hsecond | hsecond
    · exact hnew second hsecond
    · rw [List.mem_singleton.mp hsecond]
      exact relation.agrees_self

/-! ### A table of preferences -/

/-- The preferred one of two actions, filed under the two. -/
abbrev PreferenceTable := Std.HashMap (ActionId × ActionId) ActionId

/-- Files what a relation prefers, unless something else is filed for the two. -/
def PreferenceTable.file (table : PreferenceTable) (relation : Relation) :
    Option PreferenceTable :=
  match relation.prefers? with
  | none => some table
  | some preferred =>
    match table[relation.pair]? with
    | some existing =>
      if existing ≠ preferred then none else some (table.insert relation.pair preferred)
    | none => some (table.insert relation.pair preferred)

/-- The table of all relations, unless one is refused. -/
def PreferenceTable.ofRelations (relations : List Relation) : Option PreferenceTable :=
  relations.foldlM PreferenceTable.file ∅

/-- What the table takes, it has from then on; nothing else changes. -/
theorem PreferenceTable.getElem?_file {table table' : PreferenceTable}
    (hfile : table.file relation = some table') (pair : ActionId × ActionId) :
    table'[pair]? = table[pair]?.or (if relation.pair = pair then relation.prefers? else none) := by
  unfold PreferenceTable.file at hfile
  cases hprefers : relation.prefers? with
  | none =>
      rw [hprefers] at hfile
      cases hfile
      simp
  | some preferred =>
      rw [hprefers] at hfile
      dsimp only at hfile
      have hfiled : table' = table.insert relation.pair preferred ∧
          ∀ existing, table[relation.pair]? = some existing → existing = preferred := by
        split at hfile
        · rename_i existing hexisting
          split at hfile
          · cases hfile
          · rename_i hsame
            refine ⟨(Option.some.inj hfile).symm, fun other hother => ?_⟩
            rw [hexisting] at hother
            rw [← Option.some.inj hother, not_not.mp hsame]
        · rename_i hnone
          exact ⟨(Option.some.inj hfile).symm, fun _ hother => nomatch hnone.symm.trans hother⟩
      obtain ⟨rfl, hexisting⟩ := hfiled
      rw [Std.HashMap.getElem?_insert]
      by_cases hpair : relation.pair = pair
      · subst hpair
        cases hlookup : table[relation.pair]? with
        | none => simp
        | some existing => simp [hexisting existing hlookup]
      · simp [hpair]

/-- The table has what the lookup answers. -/
def Mirrored (couplings : Couplings) (table : PreferenceTable) : Prop :=
  ∀ pair, table[pair]? = couplings.preferredOf pair

variable {table table' : PreferenceTable}

/-- The table refuses what is at odds with the record. -/
theorem Mirrored.file_eq_none_iff (h : couplings.Mirrored table) :
    table.file relation = none ↔ couplings.contradicts relation = true := by
  rw [← Bool.not_eq_false, contradicts_eq_false_iff, ← h relation.pair]
  unfold PreferenceTable.file Relation.prefers?
  cases relation.preference? with
  | none => simp
  | some preference =>
      cases table[relation.pair]? with
      | none => simp
      | some existing => simp [eq_comm]

/-- The table goes on having what the lookup answers. -/
theorem Mirrored.file (h : couplings.Mirrored table) (hfile : table.file relation = some table') :
    (couplings.adding relation).Mirrored table' := by
  intro pair
  rw [PreferenceTable.getElem?_file hfile, h pair]
  exact (preferredOf_append pair).symm

/-! ### Whatever is declared -/

/-- What can be on record: whatever declarations were made, accepted or refused, while whatever
actions were there. -/
inductive Reached : Couplings → Prop
  | empty : Reached .empty
  | declare {d : Declarations} (h : Reached d.plan.couplings) (coupling : Coupling) :
      Reached (coupling.declare.run.run d).2.plan.couplings

end Couplings

/-- A declaration adds no relation, or one that is not at odds with the record. -/
theorem Coupling.relations_declare (coupling : Coupling) (d : Declarations) :
    (coupling.declare.run.run d).2.plan.couplings.relations = d.plan.couplings.relations ∨
      ∃ relation, d.plan.couplings.contradicts relation = false ∧
        (coupling.declare.run.run d).2.plan.couplings.relations =
          (d.plan.couplings.adding relation).relations := by
  rw [run_declare]
  cases hchange : coupling.change d.plan.couplings d.plan.roster with
  | error fault => exact .inl rfl
  | ok couplings =>
      obtain ⟨hadmissible, rfl⟩ := change_eq_ok_iff.mp hchange
      cases hrelation : coupling.relation? with
      | none => exact .inl (by simp [addTo, hrelation])
      | some relation =>
          exact .inr ⟨relation, hadmissible.2 relation hrelation,
            by simp [addTo, hrelation, Couplings.adding]⟩

namespace Couplings

variable {couplings couplings' : Couplings}

theorem Consistent.congr (h : couplings.Consistent)
    (hsame : couplings'.relations = couplings.relations) : couplings'.Consistent := by
  unfold Consistent
  rw [hsame]
  exact h

theorem Mirrored.congr {table : PreferenceTable} (h : couplings.Mirrored table)
    (hsame : couplings'.relations = couplings.relations) : couplings'.Mirrored table := by
  unfold Mirrored preferredOf
  rw [hsame]
  exact h

theorem Reached.consistent (h : couplings.Reached) : couplings.Consistent := by
  induction h with
  | empty => exact empty_consistent
  | @declare d _ coupling ih =>
      rcases coupling.relations_declare d with hsame | ⟨relation, hagrees, hadded⟩
      · exact ih.congr hsame
      · exact (ih.adding hagrees).congr hadded

/-- A table filled in on the way is never in the way, and mirrors the record in the end. -/
theorem Reached.exists_table (h : couplings.Reached) : ∃ table,
    PreferenceTable.ofRelations couplings.relations = some table ∧ couplings.Mirrored table := by
  induction h with
  | empty => exact ⟨∅, rfl, fun pair => Std.HashMap.getElem?_empty⟩
  | @declare d _ coupling ih =>
      obtain ⟨table, htable, hmirrored⟩ := ih
      rcases coupling.relations_declare d with hsame | ⟨relation, hagrees, hadded⟩
      · exact ⟨table, hsame ▸ htable, hmirrored.congr hsame⟩
      · obtain ⟨table', hfile⟩ : ∃ table', table.file relation = some table' := by
          refine Option.ne_none_iff_exists'.mp fun hnone => ?_
          rw [hmirrored.file_eq_none_iff, hagrees] at hnone
          cases hnone
        refine ⟨table', ?_, (hmirrored.file hfile).congr hadded⟩
        rw [hadded]
        unfold PreferenceTable.ofRelations at htable ⊢
        simp [adding, List.foldlM_append, htable, hfile]

/-- Between actions that are there, a relation is refused for what it prefers or not at all. -/
theorem relate_of_known {roster : Roster} {relation : Relation}
    (hstart : relation.start < roster.size) (hfinish : relation.finish < roster.size) :
    couplings.relate roster relation =
      if couplings.contradicts relation then
        .error (.contradictoryPriority (roster.name relation.start) (roster.name relation.finish))
      else .ok (couplings.adding relation) := by
  unfold relate
  rw [Roster.check, if_pos hstart, Roster.check, if_pos hfinish]
  show (if couplings.contradicts relation then _ else _) = _
  split <;> rfl

end Couplings

/-- What a declaration of a relation answers. -/
theorem Coupling.run_relation {coupling : Coupling} {relation : Relation} {d : Declarations}
    (hrelation : coupling.relation? = some relation) (hstart : relation.start < d.plan.roster.size)
    (hfinish : relation.finish < d.plan.roster.size) :
    (coupling.declare.run.run d).1 = if d.plan.couplings.contradicts relation then
        .error (.contradictoryPriority (d.plan.name relation.start) (d.plan.name relation.finish))
      else .ok () := by
  have hchange : coupling.change d.plan.couplings d.plan.roster =
      d.plan.couplings.relate d.plan.roster relation := by
    cases coupling <;> simp [relation?] at hrelation <;> subst hrelation <;> rfl
  rw [run_declare, hchange, Couplings.relate_of_known hstart hfinish]
  cases d.plan.couplings.contradicts relation <;> rfl

namespace Declarations

variable {d d' : Declarations}

/-- A request may leave anything but what is on record about pairs. -/
theorem reached_of_leaves {α : Type} {request : Declare α} {P : α → Declarations → Prop}
    (h : request.Leaves d P) (hd : d.plan.couplings.Reached)
    (hP : ∀ a d', P a d' → d'.plan.couplings = d.plan.couplings) :
    (request.run.run d).2.plan.couplings.Reached := by
  suffices hsame : (request.run.run d).2.plan.couplings = d.plan.couplings by
    rw [hsame]
    exact hd
  obtain ⟨-, hrefused, hanswered⟩ := h _ _ rfl
  cases hanswer : (request.run.run d).1 with
  | error fault => exact congrArg Plan.couplings (hrefused fault hanswer)
  | ok a => exact hP a _ (hanswered a hanswer)

/-- Only declarations about pairs change what is on record about pairs. -/
theorem Step.reached (h : Step d d') (hd : d.plan.couplings.Reached) :
    d'.plan.couplings.Reached := by
  cases h with
  | logic _ request hgrows =>
      refine reached_of_leaves (Declare.logic_leaves hgrows) hd fun _ _ hlogic => ?_
      rw [hlogic.1]
  | block _ name parent =>
      refine reached_of_leaves (Declare.block_leaves name parent) hd fun _ _ hblock => ?_
      obtain ⟨-, blocks, hplan, -⟩ := hblock
      rw [hplan]
  | transaction _ name owner request =>
      refine reached_of_leaves (Declare.transaction_leaves name owner request) hd
        fun _ _ htransaction => ?_
      obtain ⟨-, -, qualifiedName, rfl⟩ := htransaction
      rfl
  | method _ spec =>
      refine reached_of_leaves (Declare.method_leaves spec) hd fun _ _ hmethod => ?_
      obtain ⟨action, hplan, -⟩ := hmethod
      rw [hplan]
      rfl
  | defineOutput _ method value =>
      refine reached_of_leaves (Declare.defineOutput_leaves method value) hd fun _ _ hplan => ?_
      rw [hplan]
  | call _ caller callee enable arguments =>
      refine reached_of_leaves (Declare.call_leaves caller callee enable arguments) hd
        fun _ _ hcall => ?_
      obtain ⟨site, -, rfl⟩ := hcall
      rfl
  | conflict _ a b priority => exact .declare hd (.conflict a b priority)
  | before _ a b => exact .declare hd (.before a b)
  | simultaneous _ a others => exact .declare hd (.simultaneous a others)
  | alternatives _ a others => exact .declare hd (.alternatives a others)
  | acknowledge _ a b => exact .declare hd (.acknowledge a b)

/-- What a design has on record can be on record. -/
theorem Declared.reached (h : d.Declared) : d.plan.couplings.Reached := by
  suffices hsteps : ∀ {d d' : Declarations}, Steps d d' → d.plan.couplings.Reached →
      d'.plan.couplings.Reached from hsteps h .empty
  intro d d' hsteps hd
  induction hsteps with
  | refl => exact hd
  | step _ hstep ih => exact hstep.reached ih

end Declarations

/-- **Preferences on record do not differ.**  Any two relations on record agree on which of their
two actions is preferred, if they say so; a lookup of the two, in either order, answers what some
relation on record prefers, and so does a table with one entry for the two; and a declaration that
prefers one of two actions that are there is refused for it exactly if a relation on record prefers
the other one.  A refused declaration changes nothing. -/
theorem preferences_consistent {d : Declarations} (h : d.plan.couplings.Reached) :
    (∀ relation ∈ d.plan.couplings.relations, ∀ other ∈ d.plan.couplings.relations,
      relation.Agrees other) ∧
    (∀ a b, d.plan.couplings.preferred? a b = d.plan.couplings.preferred? b a ∧
      ∀ p, d.plan.couplings.preferred? a b = some p ↔
        d.plan.couplings.Prefers (ordered a b) p) ∧
    (∃ table, Couplings.PreferenceTable.ofRelations d.plan.couplings.relations = some table ∧
      (∀ a b, table[ordered a b]? = d.plan.couplings.preferred? a b) ∧
      ∀ relation, table.file relation = none ↔ d.plan.couplings.contradicts relation = true) ∧
    ∀ (coupling : Coupling) (relation : Relation) (p q : ActionId),
      coupling.relation? = some relation → relation.preference? = some (p, q) →
      relation.start < d.plan.roster.size → relation.finish < d.plan.roster.size →
        ((coupling.declare.run.run d).1 = .error (.contradictoryPriority
            (d.plan.name relation.start) (d.plan.name relation.finish)) ↔
          p ≠ q ∧ d.plan.couplings.Prefers relation.pair q) ∧
        ∀ fault d', coupling.declare.run.run d = (.error fault, d') → d' = d := by
  have hconsistent := h.consistent
  obtain ⟨table, htable, hmirrored⟩ := h.exists_table
  refine ⟨hconsistent, fun a b => ⟨?_, fun p => hconsistent.preferredOf_eq_some_iff⟩,
    ⟨table, htable, fun a b => hmirrored (ordered a b), fun _ => hmirrored.file_eq_none_iff⟩, ?_⟩
  · unfold Couplings.preferred?
    rw [ordered_comm a b]
  · intro coupling relation p q hrelation hpreference hstart hfinish
    refine ⟨?_, fun fault d' hrefused => ?_⟩
    · rw [Coupling.run_relation hrelation hstart hfinish,
        ← hconsistent.contradicts_iff hpreference]
      split <;> simp_all
    · rw [Coupling.declare_eq] at hrefused
      exact Declare.couple_traceless _ fault d' hrefused

/-- Two tasks of which the first is preferred, which is said in three ways. -/
def ranking : Declare Unit := do
  let go ← Declare.logic (Build.input "go" 1)
  let first ← Declare.transaction "first" none go
  let second ← Declare.transaction "second" none go
  Declare.conflict first second .left
  Declare.conflict second first .right
  Declare.before first second

theorem ranking_declares : ranking.Declares := by
  refine Declare.bind_declares (Declare.logic_declares (Build.input_grows _ _)) fun go => ?_
  refine Declare.bind_declares (Declare.transaction_declares _ _ _) fun first => ?_
  refine Declare.bind_declares (Declare.transaction_declares _ _ _) fun second => ?_
  refine Declare.bind_declares (Declare.conflict_declares _ _ _) fun _ => ?_
  refine Declare.bind_declares (Declare.conflict_declares _ _ _) fun _ => ?_
  exact Declare.declares_of_step fun d => .before d first second

/-- All three are accepted, and then the second task cannot be preferred any more. -/
theorem ranking_consistent : ∃ d : Declarations, ranking.run.run .empty = (.ok (), d) ∧
    d.plan.couplings.relations.length = 3 ∧ d.plan.couplings.preferred? 1 0 = some 0 ∧
    (Declare.before 1 0).run.run d = (.error (.contradictoryPriority "second" "first"), d) := by
  have haccepted : (ranking.run.run .empty).1 = .ok () := by decide +kernel
  have hlength : (ranking.run.run .empty).2.plan.couplings.relations.length = 3 := by
    decide +kernel
  have hfirst : (ranking.run.run .empty).2.plan.couplings.relations.head? =
      some (.conflict 0 1 .left) := by decide +kernel
  have hsize : (ranking.run.run .empty).2.plan.roster.size = 2 := by decide +kernel
  have hnames : (ranking.run.run .empty).2.plan.name 1 = "second" ∧
      (ranking.run.run .empty).2.plan.name 0 = "first" := by decide +kernel
  obtain ⟨-, hlookup, -, hrefused⟩ := preferences_consistent ranking_declares.declared.reached
  have hprefers : (ranking.run.run .empty).2.plan.couplings.Prefers (ordered 1 0) 0 :=
    ⟨_, List.mem_of_mem_head? hfirst, rfl, rfl⟩
  obtain ⟨hbefore, hunchanged⟩ := hrefused (.before 1 0) (.before 1 0) 1 0 rfl rfl
    (by rw [hsize]; decide) (by rw [hsize]; decide)
  have hanswer := hbefore.mpr ⟨by decide, hprefers⟩
  rw [show (Relation.before 1 0).start = 1 from rfl, show (Relation.before 1 0).finish = 0 from rfl,
    hnames.1, hnames.2] at hanswer
  exact ⟨_, Prod.ext haccepted rfl, hlength, ((hlookup 1 0).2 0).mpr hprefers,
    Prod.ext hanswer (hunchanged _ _ (Prod.ext hanswer rfl))⟩

end Interlock
