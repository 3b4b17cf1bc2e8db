import Folio.Text

/-!
# UTF-8

A character is written in one to four bytes. Reading is a machine that runs over the bytes: between
characters it owes nothing, and inside one it knows how many bytes are still to come, the bits read
so far, and the least number that needs so many bytes. **Overlong forms, surrogates and numbers
beyond the last character are refused.**
-/

namespace Folio

-- Kept closed: the equations of the readers below are found without comparing code points.
/-- The character with this code point, if there is one. -/
@[irreducible] def scalar? (n : Nat) : Option Char :=
  if n.isValidChar then some (Char.ofNat n) else none

theorem scalar?_toNat (c : Char) : scalar? c.toNat = some c := by
  have hvalid : c.toNat.isValidChar := c.valid
  rw [scalar?, if_pos hvalid, Char.ofNat_toNat]

namespace Utf8

def encodeChar (c : Char) : List UInt8 :=
  let n := c.toNat
  if n < 0x80 then [.ofNat n]
  else if n < 0x800 then [.ofNat (0xC0 + n / 0x40), .ofNat (0x80 + n % 0x40)]
  else if n < 0x10000 then
    [.ofNat (0xE0 + n / 0x1000), .ofNat (0x80 + n / 0x40 % 0x40), .ofNat (0x80 + n % 0x40)]
  else
    [.ofNat (0xF0 + n / 0x40000), .ofNat (0x80 + n / 0x1000 % 0x40),
      .ofNat (0x80 + n / 0x40 % 0x40), .ofNat (0x80 + n % 0x40)]

def encode (s : Text) : List UInt8 := s.flatMap encodeChar

/-- Reads on, where `owed` bytes of a character are still to come, `bits` is the number read so far
and `least` the least number that needs as many bytes. The flag tells whether the bytes may end
inside a character, which is left out then. -/
def decodeFrom (mayEnd : Bool) (owed bits least : Nat) : List UInt8 → Option Text
  | [] => if owed = 0 || mayEnd then some [] else none
  | b :: s =>
      let n := b.toNat
      if owed = 0 then
        if n < 0x80 then (decodeFrom mayEnd 0 0 0 s).map (Char.ofNat n :: ·)
        else if n < 0xC0 then none
        else if n < 0xE0 then decodeFrom mayEnd 1 (n - 0xC0) 0x80 s
        else if n < 0xF0 then decodeFrom mayEnd 2 (n - 0xE0) 0x800 s
        else if n < 0xF8 then decodeFrom mayEnd 3 (n - 0xF0) 0x10000 s
        else none
      else if n < 0x80 ∨ 0xC0 ≤ n then none
      else
        let bits := bits * 0x40 + (n - 0x80)
        if owed = 1 then
          if bits < least then none
          else
            match scalar? bits with
            | none => none
            | some c => (decodeFrom mayEnd 0 0 0 s).map (c :: ·)
        else decodeFrom mayEnd (owed - 1) bits least s

/-- The text of some bytes, if they are the bytes of one. -/
def decode (bytes : List UInt8) : Option Text := decodeFrom false 0 0 0 bytes

/-- The text of some bytes, if they are the first ones of a text. -/
def decodeStart (bytes : List UInt8) : Option Text := decodeFrom true 0 0 0 bytes

/-- The mark that announces UTF-8 at the start of a file. -/
def signature : List UInt8 := [0xEF, 0xBB, 0xBF]

/-- Reads a text that may begin with the signature. A file that ends inside the signature holds
nothing. -/
def decodeSigned (bytes : List UInt8) : Option Text :=
  if bytes.isPrefixOf signature then some []
  else
    match bytes with
    | 0xEF :: 0xBB :: 0xBF :: s => decode s
    | s => decode s

end Utf8

end Folio
