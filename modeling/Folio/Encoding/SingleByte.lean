import Folio.Encoding.Utf8

/-!
# Encodings of one byte for each character

Such an encoding writes most of the characters below its size as themselves. A few bytes stand for
other characters, and a few may stand for none.
-/

namespace Folio

/-- An encoding in which every character takes one byte. Bytes from `size` on stand for nothing, and
neither do the `unused` ones; the `moved` ones stand for another character than that of the same
number. -/
structure SingleByte where
  size : Nat
  moved : List (Nat × Nat)
  unused : List Nat

namespace SingleByte

/-- The code point for which a byte stands. -/
def codeOf? (e : SingleByte) (n : Nat) : Option Nat :=
  if e.size ≤ n ∨ n ∈ e.unused then none
  else some ((e.moved.lookup n).getD n)

/-- The byte that stands for a code point. -/
def byteOf? (e : SingleByte) (n : Nat) : Option Nat :=
  match (e.moved.map fun m => (m.2, m.1)).lookup n with
  | some b => some b
  | none => if e.codeOf? n = some n then some n else none

def decode (e : SingleByte) : List UInt8 → Option Text
  | [] => some []
  | b :: s =>
      match (e.codeOf? b.toNat).bind scalar? with
      | none => none
      | some c => (decode e s).map (c :: ·)

def encode (e : SingleByte) : Text → Option (List UInt8)
  | [] => some []
  | c :: s =>
      match e.byteOf? c.toNat with
      | none => none
      | some b => (encode e s).map (.ofNat b :: ·)

def ascii : SingleByte := ⟨0x80, [], []⟩

def latin1 : SingleByte := ⟨0x100, [], []⟩

/-- The first 256 characters with eight of them exchanged, among them one for the euro sign. -/
def latin9 : SingleByte where
  size := 0x100
  moved := [(0xA4, 0x20AC), (0xA6, 0x160), (0xA8, 0x161), (0xB4, 0x17D), (0xB8, 0x17E),
    (0xBC, 0x152), (0xBD, 0x153), (0xBE, 0x178)]
  unused := []

/-- The first 256 characters with punctuation and letters in the place of control characters. -/
def windows1252 : SingleByte where
  size := 0x100
  moved := [(0x80, 0x20AC), (0x82, 0x201A), (0x83, 0x192), (0x84, 0x201E), (0x85, 0x2026),
    (0x86, 0x2020), (0x87, 0x2021), (0x88, 0x2C6), (0x89, 0x2030), (0x8A, 0x160), (0x8B, 0x2039),
    (0x8C, 0x152), (0x8E, 0x17D), (0x91, 0x2018), (0x92, 0x2019), (0x93, 0x201C), (0x94, 0x201D),
    (0x95, 0x2022), (0x96, 0x2013), (0x97, 0x2014), (0x98, 0x2DC), (0x99, 0x2122), (0x9A, 0x161),
    (0x9B, 0x203A), (0x9C, 0x153), (0x9E, 0x17E), (0x9F, 0x178)]
  unused := [0x81, 0x8D, 0x8F, 0x90, 0x9D]

end SingleByte

end Folio
