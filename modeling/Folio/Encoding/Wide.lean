import Folio.Encoding.Utf8

/-!
# UTF-16 and UTF-32

Both write a text in units of two or four bytes, the most or the least significant byte first. In
UTF-16 a character beyond the first plane takes two units, which are no characters by themselves.
A file may begin with a mark that tells the order of the bytes.
-/

namespace Folio

/-- The order of the bytes in a unit: the least or the most significant one comes first. -/
inductive ByteOrder where
  | little
  | big
deriving DecidableEq

namespace ByteOrder

/-- The two bytes of a number below 2 ^ 16. -/
def pair (order : ByteOrder) (n : Nat) : List UInt8 :=
  match order with
  | little => [.ofNat (n % 0x100), .ofNat (n / 0x100)]
  | big => [.ofNat (n / 0x100), .ofNat (n % 0x100)]

/-- The number with these two bytes. -/
def ofPair (order : ByteOrder) (a b : UInt8) : Nat :=
  match order with
  | little => a.toNat + 0x100 * b.toNat
  | big => 0x100 * a.toNat + b.toNat

end ByteOrder

/-! ## UTF-16 -/

namespace Utf16

def unitsOf (c : Char) : List Nat :=
  let n := c.toNat
  if n < 0x10000 then [n]
  else [0xD800 + (n - 0x10000) / 0x400, 0xDC00 + (n - 0x10000) % 0x400]

def encode (order : ByteOrder) (s : Text) : List UInt8 :=
  (s.flatMap unitsOf).flatMap order.pair

/-- The units that some bytes hold. -/
def unitsFrom (order : ByteOrder) : List UInt8 → Option (List Nat)
  | [] => some []
  | [_] => none
  | a :: b :: s => (unitsFrom order s).map (order.ofPair a b :: ·)

/-- Reads on, where `high` is the first unit of a character that has two. -/
def ofUnits (high : Option Nat) : List Nat → Option Text
  | [] => if high.isNone then some [] else none
  | u :: us =>
      match high with
      | none =>
          if 0xD800 ≤ u ∧ u < 0xDC00 then ofUnits (some u) us
          else
            match scalar? u with
            | none => none
            | some c => (ofUnits none us).map (c :: ·)
      | some h =>
          if 0xDC00 ≤ u ∧ u < 0xE000 then
            match scalar? (0x10000 + (h - 0xD800) * 0x400 + (u - 0xDC00)) with
            | none => none
            | some c => (ofUnits none us).map (c :: ·)
          else none

/-- The text of some bytes, if they are the bytes of one. -/
def decode (order : ByteOrder) (bytes : List UInt8) : Option Text :=
  (unitsFrom order bytes).bind (ofUnits none)

/-- The bytes of the mark that tells the order. -/
def mark (order : ByteOrder) : List UInt8 := order.pair 0xFEFF

/-- Reads a text that begins with a mark; only an empty file needs none. -/
def decodeMarked : List UInt8 → Option Text
  | [] => some []
  | 0xFF :: 0xFE :: s => decode .little s
  | 0xFE :: 0xFF :: s => decode .big s
  | _ => none

end Utf16

/-! ## UTF-32 -/

namespace Utf32

def encodeChar (order : ByteOrder) (c : Char) : List UInt8 :=
  match order with
  | .little => order.pair (c.toNat % 0x10000) ++ order.pair (c.toNat / 0x10000)
  | .big => order.pair (c.toNat / 0x10000) ++ order.pair (c.toNat % 0x10000)

def encode (order : ByteOrder) (s : Text) : List UInt8 := s.flatMap (encodeChar order)

/-- The number with these four bytes. -/
def ofFour (order : ByteOrder) (a b c d : UInt8) : Nat :=
  match order with
  | .little => order.ofPair a b + 0x10000 * order.ofPair c d
  | .big => 0x10000 * order.ofPair a b + order.ofPair c d

/-- The text of some bytes, if they are the bytes of one. -/
def decode (order : ByteOrder) : List UInt8 → Option Text
  | [] => some []
  | a :: b :: c :: d :: s =>
      match scalar? (ofFour order a b c d) with
      | none => none
      | some x => (decode order s).map (x :: ·)
  | _ => none

/-- The bytes of the mark that tells the order. -/
def mark (order : ByteOrder) : List UInt8 := encodeChar order '\ufeff'

/-- Reads a text that begins with a mark; only an empty file needs none. -/
def decodeMarked : List UInt8 → Option Text
  | [] => some []
  | 0xFF :: 0xFE :: 0x00 :: 0x00 :: s => decode .little s
  | 0x00 :: 0x00 :: 0xFE :: 0xFF :: s => decode .big s
  | _ => none

end Utf32

end Folio
