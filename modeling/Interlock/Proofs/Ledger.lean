/-
Ledgers.

The tables of a design are plain lists: an entry has the number of its place, and is found by going
through the list.  A ledger files each entry together with its number, and has an index of the
numbers by key, which is asked before an entry is made: one whose key is taken is refused.  As long
as no two entries share a key, a ledger that is filled entry by entry refuses none of them, has each
under the number of its place, and its index answers what a search through the list finds.
-/
import Mathlib.Data.List.Induction

namespace Interlock

/-- Entries with their numbers, and an index of the numbers by key. -/
structure Ledger (κ α : Type) [BEq κ] [Hashable κ] where
  entries : List (Nat × α)
  index : Std.HashMap κ Nat

namespace Ledger

section Entering

variable {κ α : Type} [BEq κ] [Hashable κ]

/-- No entries. -/
def empty : Ledger κ α := ⟨[], ∅⟩

/-- Makes an entry under the next number, unless its key is taken. -/
def enter (key : α → Option κ) (ledger : Ledger κ α) (entry : α) : Option (Ledger κ α) :=
  let number := ledger.entries.length
  match key entry with
  | none => some ⟨ledger.entries ++ [(number, entry)], ledger.index⟩
  | some k =>
    match ledger.index[k]? with
    | some _ => none
    | none => some ⟨ledger.entries ++ [(number, entry)], ledger.index.insert k number⟩

/-- The ledger of all entries, unless one is refused. -/
def ofList (key : α → Option κ) (l : List α) : Option (Ledger κ α) :=
  l.foldlM (enter key) empty

/-- The ledger has these entries, each under the number of its place, and its index has the numbers
of those with a key. -/
structure Records (key : α → Option κ) (ledger : Ledger κ α) (l : List α) : Prop where
  entries : ledger.entries = l.zipIdx.map fun (entry, number) => (number, entry)
  index : ∀ k number, ledger.index[k]? = some number ↔
    ∃ entry, l[number]? = some entry ∧ key entry = some k

end Entering

/-- No two entries share a key. -/
def Distinct {κ α : Type} (key : α → Option κ) (l : List α) : Prop :=
  ∀ (i j : Nat) (entry other : α) (k : κ), l[i]? = some entry → l[j]? = some other →
    key entry = some k → key other = some k → i = j

variable {κ α : Type} {key : α → Option κ} {l : List α} {entry : α}

/-! ### One more entry -/

theorem getElem?_concat_iff {i : Nat} {other : α} :
    (l ++ [entry])[i]? = some other ↔ l[i]? = some other ∨ i = l.length ∧ entry = other := by
  rw [List.getElem?_append]
  split
  · rename_i hlt
    simp [Nat.ne_of_lt hlt]
  · rename_i hge
    rw [List.getElem?_eq_none (Nat.not_lt.mp hge), List.getElem?_singleton]
    simp [show i - l.length = 0 ↔ i = l.length by omega]

theorem Distinct.of_concat (h : Distinct key (l ++ [entry])) : Distinct key l :=
  fun i j a b k ha hb => h i j a b k (getElem?_concat_iff.mpr (.inl ha))
    (getElem?_concat_iff.mpr (.inl hb))

/-- A key that the last entry does not have is found among the others. -/
theorem exists_concat_iff {k : κ} (hkey : key entry ≠ some k) {number : Nat} :
    (∃ other, (l ++ [entry])[number]? = some other ∧ key other = some k) ↔
      ∃ other, l[number]? = some other ∧ key other = some k := by
  simp only [getElem?_concat_iff]
  refine exists_congr fun other => and_congr_left fun hother => or_iff_left ?_
  rintro ⟨-, rfl⟩
  exact hkey hother

section Filling

variable [BEq κ] [Hashable κ] {ledger : Ledger κ α} {k : κ}

theorem enter_of_keyless (hkey : key entry = none) : enter key ledger entry =
    some ⟨ledger.entries ++ [(ledger.entries.length, entry)], ledger.index⟩ := by
  rw [enter, hkey]

theorem enter_of_free (hkey : key entry = some k) (hfree : ledger.index[k]? = none) :
    enter key ledger entry = some ⟨ledger.entries ++ [(ledger.entries.length, entry)],
      ledger.index.insert k ledger.entries.length⟩ := by
  rw [enter, hkey]
  dsimp only
  rw [hfree]

theorem empty_records : Records key (empty : Ledger κ α) [] where
  entries := rfl
  index := by simp [empty]

/-- The key of an entry that is new is free. -/
theorem Records.index_eq_none (h : Records key ledger l) (hdistinct : Distinct key (l ++ [entry]))
    (hkey : key entry = some k) : ledger.index[k]? = none := by
  refine Option.eq_none_iff_forall_ne_some.mpr fun number hnumber => ?_
  obtain ⟨other, hother, hkey'⟩ := (h.index k number).mp hnumber
  have hlast : number = l.length := hdistinct number l.length other entry k
    (getElem?_concat_iff.mpr (.inl hother)) (getElem?_concat_iff.mpr (.inr ⟨rfl, rfl⟩)) hkey' hkey
  rw [hlast, List.getElem?_eq_none (Nat.le_refl _)] at hother
  cases hother

variable [LawfulBEq κ] [LawfulHashable κ]

/-- An entry that is new is filed under the number of its place. -/
theorem Records.exists_enter (h : Records key ledger l)
    (hdistinct : Distinct key (l ++ [entry])) :
    ∃ ledger', enter key ledger entry = some ledger' ∧ Records key ledger' (l ++ [entry]) := by
  have hlength : ledger.entries.length = l.length := by
    rw [h.entries, List.length_map, List.length_zipIdx]
  have hentries : ledger.entries ++ [(ledger.entries.length, entry)] =
      (l ++ [entry]).zipIdx.map fun (entry, number) => (number, entry) := by
    rw [List.zipIdx_append, List.map_append, ← h.entries, hlength]
    simp
  cases hkey : key entry with
  | none =>
      refine ⟨_, enter_of_keyless hkey, hentries, fun k number => ?_⟩
      rw [h.index, exists_concat_iff (by simp [hkey])]
  | some taken =>
      refine ⟨_, enter_of_free hkey (h.index_eq_none hdistinct hkey), hentries,
        fun k number => ?_⟩
      rw [Std.HashMap.getElem?_insert, hlength]
      by_cases hsame : taken = k
      · subst hsame
        rw [if_pos (beq_self_eq_true taken), Option.some.injEq]
        constructor
        · rintro rfl
          exact ⟨entry, getElem?_concat_iff.mpr (.inr ⟨rfl, rfl⟩), hkey⟩
        · rintro ⟨other, hother, hkey'⟩
          exact hdistinct _ _ entry other taken (getElem?_concat_iff.mpr (.inr ⟨rfl, rfl⟩)) hother
            hkey hkey'
      · rw [if_neg (by simpa using hsame), h.index, exists_concat_iff (by simpa [hkey] using hsame)]

/-- **A ledger of entries that differ in their keys refuses none of them**, and records them all. -/
theorem Distinct.exists_ledger (h : Distinct key l) :
    ∃ ledger : Ledger κ α, ofList key l = some ledger ∧ Records key ledger l := by
  induction l using List.reverseRecOn with
  | nil => exact ⟨empty, rfl, empty_records⟩
  | append_singleton l entry ih =>
      obtain ⟨ledger, hledger, hrecords⟩ := ih h.of_concat
      obtain ⟨ledger', henter, hrecords'⟩ := hrecords.exists_enter h
      refine ⟨ledger', ?_, hrecords'⟩
      unfold ofList at hledger ⊢
      rw [List.foldlM_append, hledger]
      simpa using henter

end Filling

end Ledger

end Interlock
