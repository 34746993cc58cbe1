/-
Settings are read by their grammar.

A setting is cut at its first equals sign.  What stands before it, without the blanks around, is the
name; what stands behind it, without the blanks around, has to be a numeral: decimal, or hexadecimal
after `0x`, perhaps with a plus sign before the digits, of a number that is a word.  Nothing else is
read, so that a name and a number that are written out are read back.
-/
import Interlock.Proofs.Numeral
import Interlock.Setting
import Mathlib.Data.List.DropRight

namespace Interlock

namespace Blank

variable {text middle : List Char}

/-! ### Blanks at the ends -/

/-- No blank stands at either end. -/
def Bare (text : List Char) : Prop :=
  (∀ c ∈ text.head?, isBlank c = false) ∧ ∀ c ∈ text.getLast?, isBlank c = false

/-- The text is the bare one with blanks around it. -/
def Surrounds (text middle : List Char) : Prop :=
  ∃ before after, text = before ++ middle ++ after ∧
    (∀ c ∈ before, isBlank c = true) ∧ (∀ c ∈ after, isBlank c = true) ∧ Bare middle

theorem head?_trimStart (text : List Char) :
    ∀ c ∈ (trimStart text).head?, isBlank c = false := by
  intro c hc
  have hnot := List.head?_dropWhile_not isBlank text
  rw [show (text.dropWhile isBlank).head? = some c from hc] at hnot
  exact hnot

theorem trimStart_eq_self (h : ∀ c ∈ text.head?, isBlank c = false) : trimStart text = text := by
  cases text with
  | nil => rfl
  | cons c rest => exact List.dropWhile_cons_of_neg (by simp [h c rfl])

theorem exists_trimStart (text : List Char) : ∃ before, text = before ++ trimStart text ∧
    ∀ c ∈ before, isBlank c = true :=
  ⟨text.takeWhile isBlank, List.takeWhile_append_dropWhile.symm, fun _ => List.mem_takeWhile_imp⟩

theorem exists_trimEnd (text : List Char) : ∃ after, text = trimEnd text ++ after ∧
    ∀ c ∈ after, isBlank c = true :=
  ⟨text.rtakeWhile isBlank, List.rdropWhile_append_rtakeWhile.symm,
    fun _ => List.mem_rtakeWhile_imp⟩

/-- What is left without the blanks around it is bare. -/
theorem surrounds_trim (text : List Char) : Surrounds text (trim text) := by
  obtain ⟨before, hbefore, hblank⟩ := exists_trimStart text
  obtain ⟨after, hafter, hblank'⟩ := exists_trimEnd (trimStart text)
  refine ⟨before, after, ?_, hblank, hblank', fun c hc => ?_, fun c hc => ?_⟩
  · rw [List.append_assoc]
    exact hbefore.trans (congrArg (before ++ ·) hafter)
  · refine head?_trimStart text c ?_
    rw [hafter, List.head?_append, show (trimEnd (trimStart text)).head? = some c from hc]
    rfl
  · refine head?_trimStart (trimStart text).reverse c ?_
    rw [← List.getLast?_reverse]
    exact hc

/-- A text has one bare middle only. -/
theorem Surrounds.trim_eq (h : Surrounds text middle) : trim text = middle := by
  obtain ⟨before, after, rfl, hbefore, hafter, hhead, hlast⟩ := h
  have hstart : trimStart (before ++ middle ++ after) = trimStart (middle ++ after) := by
    rw [List.append_assoc]
    exact List.dropWhile_append_of_pos hbefore
  have hend : trimEnd (middle ++ after) = middle := by
    unfold trimEnd
    rw [List.reverse_append]
    have hdropped : trimStart (after.reverse ++ middle.reverse) = trimStart middle.reverse :=
      List.dropWhile_append_of_pos fun c hc => hafter c (List.mem_reverse.mp hc)
    rw [hdropped, trimStart_eq_self, List.reverse_reverse]
    rwa [List.head?_reverse]
  unfold trim
  rw [hstart]
  cases middle with
  | nil =>
    have hnone : trimStart ([] ++ after) = [] := List.dropWhile_eq_nil_iff.mpr hafter
    rw [hnone]
    rfl
  | cons c rest =>
    have hself : trimStart (c :: rest ++ after) = c :: rest ++ after := trimStart_eq_self hhead
    rw [hself]
    exact hend

end Blank

namespace Setting

variable {text : List Char} {word : Nat}

/-! ### Names and values -/

/-- A text is cut at its first equals sign. -/
theorem split?_eq_some_iff : ∀ {text left right : List Char}, split? text = some (left, right) ↔
    text = left ++ '=' :: right ∧ '=' ∉ left
  | [], left, right => by simp [split?]
  | c :: rest, left, right => by
    unfold split?
    split
    next heq =>
      subst heq
      constructor
      · intro h
        cases h
        exact ⟨rfl, List.not_mem_nil⟩
      · rintro ⟨htext, hnot⟩
        cases left with
        | nil => rw [(List.cons.inj htext).2]
        | cons c left =>
          rw [(List.cons.inj htext).1] at hnot
          exact absurd (List.mem_cons_self ..) hnot
    next hne =>
      constructor
      · intro h
        obtain ⟨⟨name, value⟩, hrest, heq⟩ := Option.map_eq_some_iff.mp h
        cases heq
        obtain ⟨rfl, hnot⟩ := split?_eq_some_iff.mp hrest
        exact ⟨rfl, List.not_mem_cons_of_ne_of_not_mem (Ne.symm hne) hnot⟩
      · rintro ⟨htext, hnot⟩
        cases left with
        | nil => exact absurd (List.cons.inj htext).1 hne
        | cons c' left =>
          obtain ⟨rfl, hrest⟩ := List.cons.inj htext
          rw [split?_eq_some_iff.mpr ⟨hrest, List.not_mem_of_not_mem_cons hnot⟩]
          rfl

/-- The value stands for the word: in decimal, or in hexadecimal after `0x`. -/
def ValueFor (value : List Char) (word : Nat) : Prop :=
  word < 2 ^ 64 ∧ (Numeral.DenotesSigned 10 value word ∨
    ∃ digits, value = '0' :: 'x' :: digits ∧ Numeral.DenotesSigned 16 digits word)

theorem not_denotesSigned_of_hex {digits : List Char} :
    ¬ Numeral.DenotesSigned 10 ('0' :: 'x' :: digits) word := by
  rintro ⟨sign, numeral, rfl | rfl, htext, values, -, hdigits, -⟩
  · rw [← show _ = numeral from htext] at hdigits
    cases hdigits with
    | cons _ hrest =>
      cases hrest with
      | cons hx _ => cases (Numeral.digit?_eq_some_iff (by decide)).mpr hx
  · cases htext

theorem word?_eq_some_iff {value : List Char} : word? value = some word ↔ ValueFor value word := by
  unfold word? ValueFor
  split
  next digits =>
    rw [Numeral.word?_eq_some_iff (by decide)]
    constructor
    · rintro ⟨hlt, hdigits⟩
      exact ⟨hlt, .inr ⟨digits, rfl, hdigits⟩⟩
    · rintro ⟨hlt, hdecimal | ⟨digits, heq, hdigits⟩⟩
      · exact absurd hdecimal not_denotesSigned_of_hex
      · cases heq
        exact ⟨hlt, hdigits⟩
  next hplain =>
    rw [Numeral.word?_eq_some_iff (by decide)]
    refine and_congr_right fun _ => ⟨.inl, fun h => h.resolve_right ?_⟩
    rintro ⟨digits, heq, -⟩
    exact hplain digits heq

/-- The text is a setting: the bare name and the bare value stand on the two sides of its first
equals sign. -/
def ReadOff (setting : Setting) (text : String) : Prop :=
  ∃ left right value, text.toList = left ++ '=' :: right ∧ '=' ∉ left ∧
    Blank.Surrounds left setting.name.toList ∧ Blank.Surrounds right value ∧
      ValueFor value setting.word

theorem parse_eq_ok_iff {text : String} {setting : Setting} :
    parse text = .ok setting ↔ setting.ReadOff text := by
  unfold parse ReadOff
  constructor
  · intro h
    split at h
    next => cases h
    next left right hsplit =>
      obtain ⟨htext, hnot⟩ := split?_eq_some_iff.mp hsplit
      dsimp only at h
      split at h
      next => cases h
      next word hword =>
        cases h
        refine ⟨left, right, Blank.trim right, htext, hnot, ?_, Blank.surrounds_trim right,
          word?_eq_some_iff.mp hword⟩
        rw [String.toList_ofList]
        exact Blank.surrounds_trim left
  · rintro ⟨left, right, value, htext, hnot, hname, hvalue, hword⟩
    rw [split?_eq_some_iff.mpr ⟨htext, hnot⟩]
    dsimp only
    rw [hvalue.trim_eq, word?_eq_some_iff.mpr hword, hname.trim_eq, String.ofList_toList]

/-- A bare name and a numeral are read back from both sides of an equals sign. -/
theorem parse_written {name : String} {value : List Char} {word : Nat}
    (hname : Blank.Bare name.toList) (hnot : '=' ∉ name.toList) (hbare : Blank.Bare value)
    (hvalue : ValueFor value word) :
    parse (name ++ "=" ++ String.ofList value) = .ok ⟨name, word⟩ := by
  refine parse_eq_ok_iff.mpr ⟨name.toList, value, value, ?_, hnot, ?_, ?_, hvalue⟩
  · simp
  · exact ⟨[], [], by simp, by simp, by simp, hname⟩
  · exact ⟨[], [], by simp, by simp, by simp, hbare⟩

/-- Digits are not blank, so that nothing of a numeral is cut off. -/
theorem not_blank_of_denotes {base : Nat} (hbase : base ≤ 16) {digits : List Char} {number : Nat}
    (h : Numeral.Denotes base digits number) : ∀ c ∈ digits, Blank.isBlank c = false := by
  intro c hc
  obtain ⟨value, hlt, hdigit⟩ := h.exists_digitFor c hc
  have hlt' : value < 16 := Nat.lt_of_lt_of_le hlt hbase
  rcases hdigit with rfl | rfl
  · interval_cases value <;> decide
  · interval_cases value <;> decide

theorem bare_of_not_blank (h : ∀ c ∈ text, Blank.isBlank c = false) : Blank.Bare text :=
  ⟨fun c hc => h c (List.mem_of_mem_head? hc), fun c hc => h c (List.mem_of_getLast? hc)⟩

/-- **Settings are read exactly.**  A text is read as a setting just if the bare name stands before
its first equals sign and a bare numeral of the word behind it.  So a bare name without an equals
sign and a word, written out in decimal or in hexadecimal, are read back. -/
theorem settings_read_exactly :
    (∀ (text : String) (setting : Setting), parse text = .ok setting ↔ setting.ReadOff text) ∧
    ∀ (name : String) (word : Nat), Blank.Bare name.toList → '=' ∉ name.toList → word < 2 ^ 64 →
      parse (name ++ "=" ++ toString word) = .ok ⟨name, word⟩ ∧
      parse (name ++ "=0x" ++ String.ofList (Nat.toDigits 16 word)) = .ok ⟨name, word⟩ := by
  refine ⟨fun text setting => parse_eq_ok_iff, fun name word hname hnot hlt => ⟨?_, ?_⟩⟩
  · have hdigits : Numeral.Denotes 10 (Nat.toDigits 10 word) word :=
      Numeral.denotes_toDigits (by decide) word
    rw [Nat.toString_eq_ofList_toDigits]
    exact parse_written hname hnot (bare_of_not_blank (not_blank_of_denotes (by decide) hdigits))
      ⟨hlt, .inl hdigits.signed⟩
  · have hdigits : Numeral.Denotes 16 (Nat.toDigits 16 word) word :=
      Numeral.denotes_toDigits (by decide) word
    have htext : name ++ "=0x" ++ String.ofList (Nat.toDigits 16 word) =
        name ++ "=" ++ String.ofList ('0' :: 'x' :: Nat.toDigits 16 word) := by
      rw [← String.toList_inj]
      simp
    rw [htext]
    refine parse_written hname hnot (bare_of_not_blank fun c hc => ?_)
      ⟨hlt, .inr ⟨_, rfl, hdigits.signed⟩⟩
    rcases List.mem_cons.mp hc with rfl | hc
    · decide
    · rcases List.mem_cons.mp hc with rfl | hc
      · decide
      · exact not_blank_of_denotes (by decide) hdigits c hc

/-- Blanks, a plus sign and letters in either case are read; the largest word is read back. -/
theorem level_read : (⟨"level", 255⟩ : Setting).ReadOff " level = 0x+Ff " ∧
    Blank.Bare "level".toList ∧ '=' ∉ "level".toList ∧
    parse "level=18446744073709551615" = .ok ⟨"level", 18446744073709551615⟩ ∧
    parse "level=0xffffffffffffffff" = .ok ⟨"level", 18446744073709551615⟩ := by
  obtain ⟨hexact, hwritten⟩ := settings_read_exactly
  have hplain : "level".toList.any Blank.isBlank = false := by decide
  have hname : Blank.Bare "level".toList := bare_of_not_blank fun c hc =>
    Bool.eq_false_of_not_eq_true (List.any_eq_false.mp hplain c hc)
  have hnot : '=' ∉ "level".toList := by decide
  obtain ⟨hdecimal, hhex⟩ := hwritten "level" 18446744073709551615 hname hnot (by decide)
  exact ⟨(hexact _ _).mp (by decide +kernel), hname, hnot, hdecimal, hhex⟩

end Setting

end Interlock
