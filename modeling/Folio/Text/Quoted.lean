import Folio.Text.Half
import Folio.Text.Printable

/-!
# Quoted texts

A text that stands inside a list or a mapping is written between quotes. **Single quotes are used
unless the text holds one and no double quote**, and then double quotes. A quote of the kind used
and a backslash get a backslash in front of them; characters that cannot be shown are written by
their code points. Bytes are written as the characters with the same numbers, with a `b` in front of
the quotes; of them only those below 128 can be shown.

Main result: `quoted_plain`, a text without special characters is written as it is.
-/

namespace Folio

namespace Text

/-! ## Escapes -/

/-- A number in a given count of hexadecimal digits. -/
def hex (width n : Nat) : Text :=
  let ds := Nat.toDigits 16 n
  List.replicate (width - ds.length) '0' ++ ds

/-- How one character is written between quotes. -/
def escape (quote c : Char) : Text :=
  if c = quote ∨ c = '\\' then ['\\', c]
  else if c = '\t' then ['\\', 't']
  else if c = '\n' then ['\\', 'n']
  else if c = '\r' then ['\\', 'r']
  else if isPrintable c then [c]
  else
    let n := Half.code c
    if n < 0x100 then '\\' :: 'x' :: hex 2 n
    else if n < 0x10000 then '\\' :: 'u' :: hex 4 n
    else '\\' :: 'U' :: hex 8 n

/-! ## Quotes -/

def singleQuote : Char := '\x27'

def doubleQuote : Char := '\x22'

/-- The quotes that fit a text. -/
def quoteFor (s : Text) : Char :=
  if singleQuote ∈ s ∧ doubleQuote ∉ s then doubleQuote else singleQuote

def quoted (s : Text) : Text :=
  let q := quoteFor s
  q :: (s.flatMap (escape q) ++ [q])

theorem quoted_plain {s : Text} (h : ∀ c ∈ s, escape singleQuote c = [c])
    (hq : quoteFor s = singleQuote) : quoted s = singleQuote :: (s ++ [singleQuote]) := by
  have hs : ∀ t : Text, (∀ c ∈ t, escape singleQuote c = [c]) →
      t.flatMap (escape singleQuote) = t := by
    intro t ht
    induction t with
    | nil => rfl
    | cons c t ih =>
        rw [List.flatMap_cons, ht c (by simp), ih fun d hd => ht d (by simp [hd])]
        rfl
  simp [quoted, hq, hs s h]

/-! ## Bytes -/

/-- How one byte is written between quotes. -/
def escapeByte (quote : Char) (b : UInt8) : Text :=
  if b < 0x80 then escape quote (Char.ofNat b.toNat) else '\\' :: 'x' :: hex 2 b.toNat

def quotedBytes (bs : List UInt8) : Text :=
  let q := quoteFor (bs.map fun b => Char.ofNat b.toNat)
  'b' :: q :: (bs.flatMap (escapeByte q) ++ [q])

end Text

end Folio
