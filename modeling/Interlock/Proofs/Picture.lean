/-
Names in the picture stay between their quotes.

A name may hold quotes and backslashes, which are written with a backslash in front.  Reading what
was written gives the name back and stops at the quote behind it, whatever follows.  The rest of the
picture has no quotes, so that the texts between quotes, read from the start of the picture to its
end, are just the names of the candidates.
-/
import Interlock.System.Picture
import Mathlib.Data.List.Basic

namespace Interlock

namespace Quoted

variable {c : Char} {text before label after : List Char}

/-! ### A single label -/

/-- A character that is neither a quote nor a backslash stands for itself. -/
theorem decode_cons (hquote : c ≠ '"') (hbackslash : c ≠ '\\') (rest : List Char) :
    decode (c :: rest) = (decode rest).map fun (label, after) => (c :: label, after) := by
  rw [decode] <;> simp [hquote, hbackslash]

/-- Reading what was written ends at the quote behind it and gives back what was to be written. -/
theorem decode_encode_append (label after : List Char) :
    decode (encode label ++ '"' :: after) = some (label, after) := by
  induction label with
  | nil => rfl
  | cons c rest ih =>
    unfold encode
    split
    · show (decode (encode rest ++ '"' :: after)).map _ = _
      rw [ih]
      rfl
    · rename_i hplain
      obtain ⟨hquote, hbackslash⟩ := not_or.mp hplain
      rw [List.cons_append, decode_cons hquote hbackslash, ih]
      rfl

theorem encode_injective : Function.Injective encode := by
  intro label label' h
  have hread := decode_encode_append label []
  rw [h, decode_encode_append] at hread
  exact (Prod.mk.inj (Option.some.inj hread)).1.symm

/-- Replaces a character, wherever it stands in a text. -/
def substitute (target : Char) (replacement text : List Char) : List Char :=
  text.flatMap fun c => if c = target then replacement else [c]

theorem substitute_append (target : Char) (replacement text after : List Char) :
    substitute target replacement (text ++ after) =
      substitute target replacement text ++ substitute target replacement after :=
  List.flatMap_append

/-- Backslashes are doubled first, so that those in front of quotes are not. -/
theorem encode_eq_substitute (label : List Char) :
    encode label = substitute '"' ['\\', '"'] (substitute '\\' ['\\', '\\'] label) := by
  induction label with
  | nil => rfl
  | cons c rest ih =>
    have hcons : c :: rest = [c] ++ rest := rfl
    rw [encode, hcons, substitute_append, substitute_append, ← ih]
    by_cases hbackslash : c = '\\'
    · subst hbackslash
      rfl
    · by_cases hquote : c = '"'
      · subst hquote
        rfl
      · simp [substitute, hbackslash, hquote]

/-! ### All labels of a text -/

theorem length_of_decode (h : decode text = some (label, after)) : after.length < text.length := by
  fun_induction decode text generalizing label with
  | case1 => cases h
  | case2 rest =>
    cases h
    exact Nat.lt_succ_self _
  | case3 c rest ih =>
    obtain ⟨⟨read, remaining⟩, hread, heq⟩ := Option.map_eq_some_iff.mp h
    cases heq
    exact Nat.lt_succ_of_lt (Nat.lt_succ_of_lt (ih hread))
  | case4 => cases h
  | case5 c rest _ _ _ ih =>
    obtain ⟨⟨read, remaining⟩, hread, heq⟩ := Option.map_eq_some_iff.mp h
    cases heq
    exact Nat.lt_succ_of_lt (ih hread)

/-- The labels of a text, each read from the quote in front of it to the quote behind it, if the
last one has such a quote. -/
def labels : List Char → Option (List (List Char))
  | [] => some []
  | c :: rest =>
    if c = '"' then
      match h : decode rest with
      | none => none
      | some (label, after) =>
        have := length_of_decode h
        (labels after).map (label :: ·)
    else labels rest
termination_by text => text.length

/-- A text without quotes has no labels. -/
theorem labels_append (h : '"' ∉ before) (text : List Char) :
    labels (before ++ text) = labels text := by
  induction before with
  | nil => rfl
  | cons c rest ih =>
    rw [List.mem_cons, not_or] at h
    rw [List.cons_append, labels, if_neg (Ne.symm h.1), ih h.2]

theorem labels_of_not_mem (h : '"' ∉ text) : labels text = some [] := by
  rw [← List.append_nil text, labels_append h, labels]

/-- A text in quotes is one label, whatever it holds. -/
theorem labels_quote_append (name : String) (text : List Char) :
    labels ((quote name).toList ++ text) = (labels text).map (name.toList :: ·) := by
  have hquote : (quote name).toList ++ text = '"' :: (encode name.toList ++ '"' :: text) := by
    unfold quote
    simp
  rw [hquote, labels, if_pos rfl]
  split
  next hread =>
    rw [decode_encode_append] at hread
    cases hread
  next hread =>
    rw [decode_encode_append] at hread
    cases hread
    rfl

end Quoted

namespace System

open Quoted

/-! ### The labels of a picture -/

/-- Numbers are written without quotes. -/
theorem quote_not_mem_boxName (index : Nat) : '"' ∉ (boxName index).toList := by
  unfold boxName
  rw [String.toList_append, List.mem_append, Nat.toString_eq_ofList_toDigits]
  intro hmem
  rcases hmem with hletter | hdigits
  · exact absurd hletter (by decide)
  · rw [String.toList_ofList] at hdigits
    have hdigit := Nat.isDigit_of_mem_toDigits (by decide) (by decide) hdigits
    exact absurd hdigit (by decide)

theorem quote_not_mem_pictureLine {content : String} (h : '"' ∉ content.toList) :
    '"' ∉ (pictureLine content).toList := by
  unfold pictureLine
  simp [h]

/-- Edges are drawn without quotes. -/
theorem quote_not_mem_edgeLines {style : String} (h : '"' ∉ style.toList)
    (edges : List (Nat × Nat)) : '"' ∉ (edges.map (edgeLine style)).flatMap String.toList := by
  intro hmem
  obtain ⟨line, hline, hquote⟩ := List.mem_flatMap.mp hmem
  obtain ⟨edge, -, rfl⟩ := List.mem_map.mp hline
  exact quote_not_mem_pictureLine (by simp [quote_not_mem_boxName, h]) hquote

/-- The line of a candidate has one label, which is its name. -/
theorem labels_boxLine_append (index : Nat) (candidate : Candidate) (text : List Char) :
    labels ((boxLine index candidate).toList ++ text) =
      (labels text).map (candidate.name.toList :: ·) := by
  have hline : (boxLine index candidate).toList ++ text =
      ("    " ++ boxName index ++ " [label=").toList ++
        ((quote candidate.name).toList ++ ("];\n".toList ++ text)) := by
    unfold boxLine pictureLine
    simp
  rw [hline, labels_append (by simp [quote_not_mem_boxName]), labels_quote_append,
    labels_append (by decide)]

/-- The lines of candidates have their names as labels, in the same order. -/
theorem labels_boxLines_append (text : List Char) : ∀ boxes : List (Candidate × Nat),
    labels ((boxes.map fun (candidate, index) => boxLine index candidate).flatMap String.toList ++
        text) =
      (labels text).map ((boxes.map Prod.fst).map (·.name.toList) ++ ·)
  | [] => by simp
  | (candidate, index) :: rest => by
    rw [List.map_cons, List.flatMap_cons, List.append_assoc, labels_boxLine_append,
      labels_boxLines_append text rest, Option.map_map]
    rfl

/-- **The labels of a picture are the names of its candidates.**  A text that is written in quotes
is read back to its last character, and reading stops at the quote behind it; so different texts are
written differently, and no name in a picture ends early or runs on. -/
theorem labels_picture :
    (∀ label after, decode (encode label ++ '"' :: after) = some (label, after)) ∧
    (∀ label, encode label = substitute '"' ['\\', '"'] (substitute '\\' ['\\', '\\'] label)) ∧
    Function.Injective encode ∧
    ∀ system : System, labels system.picture.toList =
      some (system.contention.candidates.map (·.name.toList)) := by
  refine ⟨decode_encode_append, encode_eq_substitute, encode_injective, fun system => ?_⟩
  unfold picture
  simp only [String.toList_append, String.toList_join, List.flatMap_append, List.append_assoc]
  rw [labels_append (by decide), labels_append (quote_not_mem_pictureLine (by decide)),
    labels_boxLines_append, labels_append (quote_not_mem_edgeLines (by decide) _),
    labels_append (quote_not_mem_edgeLines (by decide) _), labels_of_not_mem (by decide),
    List.zipIdx_map_fst]
  exact congrArg some (List.append_nil _)

end System

end Interlock
