import Folio.Text

/-!
# Halves of pairs

A text may be written by code points, and among these are the 2048 surrogates: two of them are the
halves of a pair that stands for one character in UTF-16, and one of them alone stands for nothing.
**A half is kept as the character for private use that is as far from the beginning of the last
plane but one** as the half is from the beginning of the first plane. It is no character that can be
shown, and no encoding has bytes for it. So a text that holds one of these 2048 characters for
private use, from U+FD800 to U+FDFFF, is taken for one that holds a half.

Main result: `isHalf_ofCode`, the halves are just the surrogates.
-/

namespace Folio

namespace Half

/-- The distance between the surrogates and the characters for which they are kept. -/
def shift : Nat := 0xF0000

/-- Whether a code point is a surrogate. -/
def isSurrogate (n : Nat) : Bool := decide (0xD800 ≤ n) && decide (n < 0xE000)

/-- The character for a code point. -/
def ofCode (n : Nat) : Char := Char.ofNat (if isSurrogate n then n + shift else n)

/-- Whether a character stands for a half. -/
def isHalf (c : Char) : Bool := isSurrogate (c.toNat - shift)

/-- The code point of a character. -/
def code (c : Char) : Nat := if isHalf c then c.toNat - shift else c.toNat

theorem toNat_ofNat {n : Nat} (h : n.isValidChar) : (Char.ofNat n).toNat = n := by
  unfold Char.ofNat
  rw [dif_pos h]
  rfl

theorem isHalf_ofCode {n : Nat} (h : n.isValidChar ∨ isSurrogate n = true) (hn : n < shift) :
    isHalf (ofCode n) = isSurrogate n := by
  unfold isHalf ofCode
  by_cases hs : isSurrogate n = true
  · have hr : 0xD800 ≤ n ∧ n < 0xE000 := by simpa [isSurrogate] using hs
    have hv : (n + shift).isValidChar := by
      right
      unfold shift
      omega
    rw [if_pos hs, toNat_ofNat hv, Nat.add_sub_cancel]
  · have hv : n.isValidChar := h.resolve_right hs
    have h0 : n - shift = 0 := Nat.sub_eq_zero_of_le (Nat.le_of_lt hn)
    rw [if_neg hs, toNat_ofNat hv, h0]
    simp only [Bool.not_eq_true] at hs
    rw [hs]
    rfl

end Half

end Folio
