/-
The entries of a roster.

An action is listed under its number, among the transactions or among the methods.
-/
import Interlock.Plan.Action

namespace Interlock.Roster

variable {roster : Roster} {a : ActionId} {action : Action}

theorem mem_entries : (a, action) ∈ roster.entries ↔ roster.actions[a]? = some action := by
  simp only [entries, List.mem_map, Prod.exists, List.mem_zipIdx_iff_getElem?,
    Prod.mk.injEq, Array.getElem?_toList]
  constructor
  · rintro ⟨_, _, h, rfl, rfl⟩
    exact h
  · intro h
    exact ⟨action, a, h, rfl, rfl⟩

/-- Entries are listed by their numbers. -/
theorem entries_ascending : roster.entries.Pairwise fun entry other => entry.1 < other.1 := by
  have hnumbers : (roster.entries.map Prod.fst).Pairwise (· < ·) := by
    rw [entries, List.map_map]
    show (roster.actions.toList.zipIdx.map Prod.snd).Pairwise (· < ·)
    rw [List.zipIdx_map_snd]
    exact List.pairwise_lt_range'
  exact List.pairwise_map.mp hnumbers

/-- No two entries have the same number. -/
theorem entries_pairwise : roster.entries.Pairwise fun entry other => entry.1 ≠ other.1 :=
  entries_ascending.imp Nat.ne_of_lt

theorem mem_transactions : (a, action) ∈ roster.transactions ↔
    roster.actions[a]? = some action ∧ action.isTransaction = true := by
  simp only [transactions, List.mem_filter, mem_entries]

theorem mem_methods : (a, action) ∈ roster.methods ↔
    roster.actions[a]? = some action ∧ action.isMethod = true := by
  simp only [methods, List.mem_filter, mem_entries]

/-- No transaction is a method. -/
theorem ne_of_mem {m : ActionId} {method : Action} (ha : (a, action) ∈ roster.transactions)
    (hm : (m, method) ∈ roster.methods) : a ≠ m := by
  intro heq
  obtain ⟨haction, hrole⟩ := mem_transactions.mp ha
  obtain ⟨hmethod, hrole'⟩ := mem_methods.mp hm
  rw [heq, hmethod] at haction
  cases haction
  unfold Action.isTransaction at hrole
  unfold Action.isMethod at hrole'
  cases hinterface : action.interface? with
  | none => simp [hinterface] at hrole'
  | some interface => simp [hinterface] at hrole

theorem lt_of_mem_transactions (h : (a, action) ∈ roster.transactions) : a < roster.size :=
  (Array.getElem?_eq_some_iff.mp (mem_transactions.mp h).1).1

theorem lt_of_mem_methods (h : (a, action) ∈ roster.methods) : a < roster.size :=
  (Array.getElem?_eq_some_iff.mp (mem_methods.mp h).1).1

/-! ### Names -/

theorem find?_eq_none_iff {name : String} : roster.find? name = none ↔
    ∀ (a : ActionId) (action : Action), roster.actions[a]? = some action →
      action.qualifiedName ≠ name := by
  unfold find?
  rw [Array.findIdx?_eq_none_iff]
  constructor
  · intro h a action haction hname
    have hne := h action (Array.mem_of_getElem? haction)
    simp [hname] at hne
  · intro h action hmem
    obtain ⟨a, haction⟩ := Array.mem_iff_getElem?.mp hmem
    simpa using h a action haction

theorem exists_of_find? {name : String} (h : roster.find? name = some a) :
    ∃ action, roster.actions[a]? = some action ∧ action.qualifiedName = name := by
  obtain ⟨hlt, hname, -⟩ := Array.findIdx?_eq_some_iff_getElem.mp h
  exact ⟨roster.actions[a], Array.getElem?_eq_getElem hlt, eq_of_beq hname⟩

/-! ### One more action -/

section Push

variable (newcomer : Action)

@[simp] theorem size_push : (roster.push newcomer).size = roster.size + 1 :=
  Array.size_push ..

@[simp] theorem actions_push_size :
    (roster.push newcomer).actions[roster.size]? = some newcomer := Array.getElem?_push_size

theorem actions_push_of_lt (h : a < roster.size) :
    (roster.push newcomer).actions[a]? = roster.actions[a]? :=
  Array.getElem?_push.trans (if_neg (Nat.ne_of_lt h))

theorem actions_push_of_some (h : roster.actions[a]? = some action) :
    (roster.push newcomer).actions[a]? = some action := by
  rw [actions_push_of_lt newcomer (Array.getElem?_eq_some_iff.mp h).1, h]

theorem name_push_of_lt (h : a < roster.size) : (roster.push newcomer).name a = roster.name a := by
  unfold name
  rw [actions_push_of_lt newcomer h]

theorem entries_push :
    (roster.push newcomer).entries = roster.entries ++ [(roster.size, newcomer)] := by
  simp [entries, push, size, List.zipIdx_append]

variable {newcomer}

/-- An action of the longer roster is one of the shorter, or the newcomer under the next number. -/
theorem actions_push_cases (h : (roster.push newcomer).actions[a]? = some action) :
    roster.actions[a]? = some action ∨ a = roster.size ∧ action = newcomer := by
  rw [push, Array.getElem?_push] at h
  split at h
  · rename_i ha
    exact .inr ⟨ha, (Option.some.inj h).symm⟩
  · exact .inl h

theorem transactions_push (h : newcomer.isTransaction = true) :
    (roster.push newcomer).transactions = roster.transactions ++ [(roster.size, newcomer)] := by
  unfold transactions
  rw [entries_push, List.filter_append]
  simp [h]

theorem methods_push (h : newcomer.isTransaction = true) :
    (roster.push newcomer).methods = roster.methods := by
  have hmethod : newcomer.isMethod = false := by
    unfold Action.isTransaction at h
    unfold Action.isMethod
    simpa using h
  unfold methods
  rw [entries_push, List.filter_append]
  simp [hmethod]

end Push

end Interlock.Roster
