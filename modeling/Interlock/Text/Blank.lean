/-
Blank characters, and texts without blanks at their ends.

Blank are the characters with the property `White_Space` of the Unicode standard, which has not
changed since version 6.3.
-/
namespace Interlock.Blank

/-- The first and last numbers of every run of blank characters. -/
def ranges : List (Nat × Nat) :=
  [(0x09, 0x0d), (0x20, 0x20), (0x85, 0x85), (0xa0, 0xa0), (0x1680, 0x1680), (0x2000, 0x200a),
    (0x2028, 0x2029), (0x202f, 0x202f), (0x205f, 0x205f), (0x3000, 0x3000)]

/-- Whether a character is blank. -/
def isBlank (c : Char) : Bool :=
  ranges.any fun (first, last) => Nat.ble first c.toNat && Nat.ble c.toNat last

/-- A text without the blanks at its start. -/
def trimStart (text : List Char) : List Char := text.dropWhile isBlank

/-- A text without the blanks at its end. -/
def trimEnd (text : List Char) : List Char := (trimStart text.reverse).reverse

/-- A text without the blanks at its start and its end. -/
def trim (text : List Char) : List Char := trimEnd (trimStart text)

end Interlock.Blank
