import Folio.Text.Blank

/-!
# Digits

Numbers may be written with the decimal digits of any script. The digits of a script have ten code
points in a row, so a script is known by the code point of its zero. `Text.plainDigits` writes a
number with the digits of ASCII, and with simple spaces for the white space beyond ASCII, so that
only one kind of digits has to be read.

Main result: `digit?_of_isDigit`, a digit of ASCII is the digit that it looks like.
-/

namespace Folio

/-- The code points of the zeros of all scripts. -/
def zeros : List Nat :=
  [0x30, 0x660, 0x6F0, 0x7C0, 0x966, 0x9E6, 0xA66, 0xAE6, 0xB66, 0xBE6, 0xC66, 0xCE6, 0xD66, 0xDE6,
    0xE50, 0xED0, 0xF20, 0x1040, 0x1090, 0x17E0, 0x1810, 0x1946, 0x19D0, 0x1A80, 0x1A90, 0x1B50,
    0x1BB0, 0x1C40, 0x1C50, 0xA620, 0xA8D0, 0xA900, 0xA9D0, 0xA9F0, 0xAA50, 0xABF0, 0xFF10, 0x104A0,
    0x10D30, 0x11066, 0x110F0, 0x11136, 0x111D0, 0x112F0, 0x11450, 0x114D0, 0x11650, 0x116C0,
    0x11730, 0x118E0, 0x11950, 0x11C50, 0x11D50, 0x11DA0, 0x16A60, 0x16AC0, 0x16B50, 0x1D7CE,
    0x1D7D8, 0x1D7E2, 0x1D7EC, 0x1D7F6, 0x1E140, 0x1E2F0, 0x1E950, 0x1FBF0]

/-- The number that a digit of some script stands for. -/
def digit? (c : Char) : Option Nat :=
  (zeros.find? fun z => decide (z ≤ c.toNat) && decide (c.toNat < z + 10)).map (c.toNat - ·)

theorem digit?_of_isDigit {c : Char} (h : c.isDigit = true) :
    digit? c = some (c.toNat - '0'.toNat) := by
  have hc : 0x30 ≤ c.toNat ∧ c.toNat < 0x30 + 10 := by
    simp only [Char.isDigit, Bool.and_eq_true, decide_eq_true_eq] at h
    have h1 : (0x30 : UInt32).toNat ≤ c.val.toNat := UInt32.le_iff_toNat_le.1 h.1
    have h2 : c.val.toNat ≤ (0x39 : UInt32).toNat := UInt32.le_iff_toNat_le.1 h.2
    simp only [Char.toNat]
    exact ⟨h1, Nat.lt_of_le_of_lt h2 (by decide)⟩
  simp [digit?, zeros, hc]

namespace Text

/-- A digit as one of ASCII, and white space beyond ASCII as a space. -/
def plainDigit (c : Char) : Char :=
  if c.toNat < 0x80 then c
  else if isBlank c then ' '
  else
    match digit? c with
    | some d => Char.ofNat ('0'.toNat + d)
    | none => c

/-- Whether a character may stand around a number. -/
def isNumberSpace (c : Char) : Bool := c == ' ' || (decide ('\t' ≤ c) && decide (c ≤ '\r'))

/-- A text with its digits as digits of ASCII, and without the white space around it. -/
def plainDigits (s : Text) : Text :=
  (((s.map plainDigit).dropWhile isNumberSpace).reverse.dropWhile isNumberSpace).reverse

end Text

end Folio
