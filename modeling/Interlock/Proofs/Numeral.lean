/-
Numerals are read by their places.

The digits of a numeral are the values of its characters, of letters in either case, and what they
stand for is the number with these digits, the last of them the units.  A text is a word exactly if
it is such a numeral, perhaps with a plus sign in front, of a number that fits; so a number that is
written out with digits is read back.
-/
import Interlock.Text.Numeral
import Mathlib.Data.List.Forall2
import Mathlib.Data.Nat.Digits.Defs
import Mathlib.Tactic.IntervalCases

namespace Interlock.Numeral

variable {base value number : Nat} {c : Char} {text : List Char} {values : List Nat}

/-! ### Digits -/

/-- The character is the digit of a value to a base of sixteen at most. -/
def DigitFor (base value : Nat) (c : Char) : Prop :=
  value < base ∧ (c = value.digitChar ∨ c = value.digitChar.toUpper)

theorem digitValue?_digitChar (h : value < 16) : digitValue? value.digitChar = some value ∧
    digitValue? value.digitChar.toUpper = some value := by
  interval_cases value <;> decide

/-- What has a value below sixteen is the digit of that value, in small or in capital letters. -/
theorem eq_digitChar_of_digitValue? (h : digitValue? c = some value) (hlt : value < 16) :
    c = value.digitChar ∨ c = value.digitChar.toUpper := by
  unfold digitValue? at h
  rw [← Char.ofNat_toNat c]
  generalize c.toNat = n at h ⊢
  simp only [Char.reduceToNat] at h
  split at h
  next hrange =>
    obtain rfl : n = value + 48 := by
      cases h
      omega
    have : value ≤ 9 := by omega
    interval_cases value <;> decide
  next =>
    split at h
    next hrange =>
      obtain rfl : n = value + 87 := by
        cases h
        omega
      have : 10 ≤ value := by omega
      interval_cases value <;> decide
    next =>
      split at h
      next hrange =>
        obtain rfl : n = value + 55 := by
          cases h
          omega
        have : 10 ≤ value := by omega
        interval_cases value <;> decide
      next => cases h

theorem digit?_eq_some_iff (hbase : base ≤ 16) : digit? base c = some value ↔
    DigitFor base value c := by
  unfold digit? DigitFor
  constructor
  · intro h
    split at h
    next found hfound =>
      split at h
      next hlt =>
        cases h
        exact ⟨hlt, eq_digitChar_of_digitValue? hfound (Nat.lt_of_lt_of_le hlt hbase)⟩
      next => cases h
    next => cases h
  · rintro ⟨hlt, hc⟩
    obtain ⟨hsmall, hcapital⟩ := digitValue?_digitChar (Nat.lt_of_lt_of_le hlt hbase)
    have hvalue : digitValue? c = some value := by
      rcases hc with rfl | rfl
      · exact hsmall
      · exact hcapital
    rw [hvalue]
    exact if_pos hlt

/-! ### Numbers -/

/-- The text writes the number to the base: it has one or more digits, the last one the units. -/
def Denotes (base : Nat) (text : List Char) (number : Nat) : Prop :=
  ∃ values, values ≠ [] ∧ List.Forall₂ (DigitFor base) values text ∧
    number = Nat.ofDigits base values.reverse

theorem ofDigits_eq (base : Nat) (values : List Nat) :
    ofDigits base values = Nat.ofDigits base values.reverse := by
  rw [Nat.ofDigits_eq_foldr, List.foldr_reverse]
  unfold ofDigits
  congr 1
  funext number digit
  exact Nat.add_comm _ _

theorem mapM_digit?_eq_some_iff (hbase : base ≤ 16) : ∀ {text : List Char} {values : List Nat},
    text.mapM (digit? base) = some values ↔ List.Forall₂ (DigitFor base) values text
  | [], values => by simp [List.forall₂_nil_right_iff, eq_comm]
  | c :: rest, values => by
    rw [List.mapM_cons]
    constructor
    · intro h
      obtain ⟨value, hvalue, h⟩ := Option.bind_eq_some_iff.mp h
      obtain ⟨others, hothers, h⟩ := Option.bind_eq_some_iff.mp h
      cases h
      exact .cons ((digit?_eq_some_iff hbase).mp hvalue)
        ((mapM_digit?_eq_some_iff hbase).mp hothers)
    · intro h
      cases h with
      | cons hvalue hothers =>
        rw [(digit?_eq_some_iff hbase).mpr hvalue, (mapM_digit?_eq_some_iff hbase).mpr hothers]
        rfl

theorem number?_eq_some_iff (hbase : base ≤ 16) : number? base text = some number ↔
    Denotes base text number := by
  have hempty : ∀ {values : List Nat}, List.Forall₂ (DigitFor base) values text →
      (values ≠ [] ↔ ¬ text.isEmpty) := by
    intro values h
    cases h <;> simp
  unfold number? Denotes
  constructor
  · intro h
    split at h
    next => cases h
    next hsome =>
      obtain ⟨values, hvalues, rfl⟩ := Option.map_eq_some_iff.mp h
      have hdigits := (mapM_digit?_eq_some_iff hbase).mp hvalues
      exact ⟨values, (hempty hdigits).mpr hsome, hdigits, ofDigits_eq base values⟩
  · rintro ⟨values, hne, hdigits, rfl⟩
    rw [if_neg ((hempty hdigits).mp hne), (mapM_digit?_eq_some_iff hbase).mpr hdigits,
      ← ofDigits_eq]
    rfl

/-- A numeral is made of digits. -/
theorem Denotes.exists_digitFor (h : Denotes base text number) :
    ∀ c ∈ text, ∃ value, DigitFor base value c := by
  obtain ⟨values, -, hdigits, -⟩ := h
  induction hdigits with
  | nil => exact fun c hc => absurd hc List.not_mem_nil
  | cons hdigit _ ih =>
    intro c hc
    rcases List.mem_cons.mp hc with rfl | hc
    · exact ⟨_, hdigit⟩
    · exact ih c hc

/-- A digit behind a numeral is its units. -/
theorem Denotes.concat (h : Denotes base text number) (hc : DigitFor base value c) :
    Denotes base (text ++ [c]) (base * number + value) := by
  obtain ⟨values, -, hdigits, rfl⟩ := h
  refine ⟨values ++ [value], List.concat_ne_nil _ _, List.rel_append hdigits (.cons hc .nil), ?_⟩
  rw [List.reverse_append, List.reverse_singleton, List.singleton_append, Nat.ofDigits_cons]
  exact Nat.add_comm _ _

/-- A number is denoted by the digits that it is written out with. -/
theorem denotes_toDigits (hbase : 1 < base) (number : Nat) :
    Denotes base (Nat.toDigits base number) number := by
  induction number using Nat.strongRecOn with
  | ind number ih =>
    by_cases hlt : number < base
    · rw [Nat.toDigits_of_lt_base hlt]
      exact ⟨[number], List.cons_ne_nil _ _, .cons ⟨hlt, .inl rfl⟩ .nil,
        Nat.ofDigits_singleton.symm⟩
    · have hle := Nat.not_lt.mp hlt
      have hunits : DigitFor base (number % base) (number % base).digitChar :=
        ⟨Nat.mod_lt _ (Nat.lt_trans Nat.zero_lt_one hbase), .inl rfl⟩
      have hrest := ih (number / base)
        (Nat.div_lt_self (Nat.lt_of_lt_of_le (Nat.lt_trans Nat.zero_lt_one hbase) hle) hbase)
      rw [Nat.toDigits_of_base_le hbase hle]
      have hwhole := hrest.concat hunits
      rwa [Nat.div_add_mod] at hwhole

/-! ### Words -/

/-- The text writes the number to the base, with a plus sign in front or without. -/
def DenotesSigned (base : Nat) (text : List Char) (number : Nat) : Prop :=
  ∃ sign digits, (sign = [] ∨ sign = ['+']) ∧ text = sign ++ digits ∧ Denotes base digits number

theorem Denotes.signed (h : Denotes base text number) : DenotesSigned base text number :=
  ⟨[], text, .inl rfl, rfl, h⟩

/-- A plus sign is no digit. -/
theorem Denotes.unsigned_eq (hbase : base ≤ 16) (h : Denotes base text number) :
    unsigned text = text := by
  obtain ⟨values, hne, hdigits, -⟩ := h
  cases hdigits with
  | nil => exact absurd rfl hne
  | @cons value c values rest hc hrest =>
    have hplus : c ≠ '+' := by
      rintro rfl
      have hdigit := (digit?_eq_some_iff hbase).mpr hc
      cases hdigit
    unfold unsigned
    split
    next heq => exact absurd (List.cons.inj heq).1 hplus
    next => rfl

theorem denotesSigned_iff (hbase : base ≤ 16) : DenotesSigned base text number ↔
    Denotes base (unsigned text) number := by
  constructor
  · rintro ⟨sign, digits, rfl | rfl, rfl, h⟩
    · exact (h.unsigned_eq hbase).symm ▸ h
    · exact h
  · intro h
    unfold unsigned at h
    split at h
    next rest => exact ⟨['+'], rest, .inr rfl, rfl, h⟩
    next => exact h.signed

/-- A text is a word if it is a numeral of one that fits. -/
theorem word?_eq_some_iff (hbase : base ≤ 16) : word? base text = some number ↔
    number < 2 ^ 64 ∧ DenotesSigned base text number := by
  have htop : number ≤ Word.top Word.maxWidth ↔ number < 2 ^ 64 := Word.le_top_iff
  rw [denotesSigned_iff hbase, ← number?_eq_some_iff hbase, ← htop]
  unfold word?
  cases hnumber : number? base (unsigned text) with
  | none => simp
  | some found =>
    dsimp only
    split
    next hfits => exact ⟨fun h => ⟨Option.some.inj h ▸ hfits, h⟩, And.right⟩
    next hlarge =>
      exact ⟨fun h => (nomatch h), fun ⟨hfits, h⟩ => absurd (Option.some.inj h ▸ hfits) hlarge⟩

end Interlock.Numeral
