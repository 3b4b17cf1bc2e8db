import Folio.Encoding

/-!
# What is written in an encoding can be read

A text is written character by character, and so it is read. In most encodings a reader that meets
the bytes of a character gives the character and goes on with what is behind them, and then a whole
text is read as it has been written (`decode_flatMap`). What has to be shown is this one step:

* in UTF-8 the machine owes some bytes after the first one, and each of these makes it owe one byte
  less (`Utf8.decodeFrom_more`, `Utf8.decodeFrom_last`);
* in UTF-16 a character beyond the first plane is read from two units, and each unit from two bytes;
* in UTF-32 a character is read from four bytes.

An encoding of one byte for each character reads what it writes if each moved byte stands for just
one character (`SingleByte.Proper`), which a look at its table tells.

**A mark is written once and taken off once.** A text may begin with the character that is used as
a mark; it stands behind the mark then, and is read as a character.

Main result: `Encoding.decode_encode`.
-/

namespace Folio

/-! ## Characters -/

theorem scalar_bounds (c : Char) :
    c.toNat < 0xD800 ∨ 0xDFFF < c.toNat ∧ c.toNat < 0x110000 := c.valid

theorem toNat_byte {n : Nat} (h : n < 0x100) : (UInt8.ofNat n).toNat = n :=
  UInt8.toNat_ofNat_of_lt h

/-- Characters that are written one after another are read one after another. -/
theorem decode_flatMap {β : Type} (write : Char → List β) (read : List β → Option Text)
    (hnil : read [] = some [])
    (hcons : ∀ c rest, read (write c ++ rest) = (read rest).map (c :: ·)) (s : Text) :
    read (s.flatMap write) = some s := by
  induction s with
  | nil => exact hnil
  | cons c s ih => rw [List.flatMap_cons, hcons, ih, Option.map_some]

/-! ## UTF-8 -/

namespace Utf8

variable {mayEnd : Bool} {owed bits least k : Nat} {c : Char}

-- The equations are made here, once for all the lemmas that rewrite with them.
attribute [local simp] decodeFrom

theorem decodeFrom_two (hk : k < 0x20) (s : List UInt8) :
    decodeFrom mayEnd 0 bits least (.ofNat (0xC0 + k) :: s) = decodeFrom mayEnd 1 k 0x80 s := by
  rw [decodeFrom, toNat_byte (by omega), if_pos rfl, if_neg (by omega), if_neg (by omega),
    if_pos (by omega), Nat.add_sub_cancel_left]

theorem decodeFrom_three (hk : k < 0x10) (s : List UInt8) :
    decodeFrom mayEnd 0 bits least (.ofNat (0xE0 + k) :: s) = decodeFrom mayEnd 2 k 0x800 s := by
  rw [decodeFrom, toNat_byte (by omega), if_pos rfl, if_neg (by omega), if_neg (by omega),
    if_neg (by omega), if_pos (by omega), Nat.add_sub_cancel_left]

theorem decodeFrom_four (hk : k < 0x08) (s : List UInt8) :
    decodeFrom mayEnd 0 bits least (.ofNat (0xF0 + k) :: s) = decodeFrom mayEnd 3 k 0x10000 s := by
  rw [decodeFrom, toNat_byte (by omega), if_pos rfl, if_neg (by omega), if_neg (by omega),
    if_neg (by omega), if_neg (by omega), if_pos (by omega), Nat.add_sub_cancel_left]

/-- A byte inside of a character. -/
theorem decodeFrom_more (hk : k < 0x40) (howed : 1 < owed) (s : List UInt8) :
    decodeFrom mayEnd owed bits least (.ofNat (0x80 + k) :: s) =
      decodeFrom mayEnd (owed - 1) (bits * 0x40 + k) least s := by
  rw [decodeFrom, toNat_byte (by omega), if_neg (by omega), if_neg (by omega), if_neg (by omega),
    Nat.add_sub_cancel_left]

/-- The last byte of a character. -/
theorem decodeFrom_last (hk : k < 0x40) (hc : bits * 0x40 + k = c.toNat) (hleast : least ≤ c.toNat)
    (s : List UInt8) :
    decodeFrom mayEnd 1 bits least (.ofNat (0x80 + k) :: s) =
      (decodeFrom mayEnd 0 0 0 s).map (c :: ·) := by
  rw [decodeFrom, toNat_byte (by omega), if_neg (by omega), if_neg (by omega), if_pos rfl,
    Nat.add_sub_cancel_left, hc, if_neg (by omega), scalar?_toNat]

theorem decodeFrom_encodeChar (mayEnd : Bool) (c : Char) (rest : List UInt8) :
    decodeFrom mayEnd 0 0 0 (encodeChar c ++ rest) =
      (decodeFrom mayEnd 0 0 0 rest).map (c :: ·) := by
  have hbounds := scalar_bounds c
  rw [encodeChar]
  -- One case for each number of bytes.
  split
  · next hone =>
      rw [List.singleton_append, decodeFrom, toNat_byte (by omega), if_pos rfl, if_pos hone,
        Char.ofNat_toNat]
  · split
    · rw [List.cons_append, List.singleton_append, decodeFrom_two (by omega)]
      exact decodeFrom_last (by omega) (by omega) (by omega) rest
    · split
      · simp only [List.cons_append, List.nil_append]
        rw [decodeFrom_three (by omega), decodeFrom_more (by omega) (by decide)]
        exact decodeFrom_last (by omega) (by omega) (by omega) rest
      · simp only [List.cons_append, List.nil_append]
        rw [decodeFrom_four (by omega), decodeFrom_more (by omega) (by decide),
          decodeFrom_more (by omega) (by decide)]
        exact decodeFrom_last (by omega) (by omega) (by omega) rest

theorem decode_encode (s : Text) : decode (encode s) = some s :=
  decode_flatMap encodeChar (decodeFrom false 0 0 0) rfl (decodeFrom_encodeChar false) s

/-- The signature is taken off, and nothing else. -/
theorem decodeSigned_append (s : List UInt8) : decodeSigned (signature ++ s) = decode s := by
  cases s with
  | nil => rfl
  | cons b s => rfl

end Utf8

/-! ## Encodings of one byte for each character -/

namespace SingleByte

/-- The table of the encoding can be read backwards. -/
structure Proper (e : SingleByte) : Prop where
  size : e.size ≤ 0x100
  moved : ∀ m ∈ e.moved, e.codeOf? m.1 = some m.2

variable {e : SingleByte} {b n : Nat}

theorem lt_of_codeOf? (he : e.Proper) (h : e.codeOf? b = some n) : b < 0x100 := by
  have hsize := he.size
  rw [codeOf?] at h
  split at h
  · cases h
  · omega

theorem codeOf?_of_byteOf? (he : e.Proper) (h : e.byteOf? n = some b) : e.codeOf? b = some n := by
  rw [byteOf?] at h
  split at h
  · next b' hlookup =>
      obtain rfl := Option.some.inj h
      rw [List.lookup_eq_some_iff] at hlookup
      obtain ⟨before, after, hmap, -⟩ := hlookup
      have hmem : (n, b') ∈ e.moved.map fun m => (m.2, m.1) := by simp [hmap]
      obtain ⟨m, hm, heq⟩ := List.mem_map.1 hmem
      obtain ⟨rfl, rfl⟩ := Prod.mk.inj heq
      exact he.moved m hm
  · split at h
    · next hself =>
        obtain rfl := Option.some.inj h
        exact hself
    · cases h

theorem decode_encode (he : e.Proper) {s : Text} {bytes : List UInt8}
    (h : e.encode s = some bytes) : e.decode bytes = some s := by
  induction s generalizing bytes with
  | nil =>
      obtain rfl := Option.some.inj h
      rfl
  | cons c s ih =>
      rw [encode] at h
      split at h
      · cases h
      · next b hbyte =>
          obtain ⟨rest, hrest, rfl⟩ := Option.map_eq_some_iff.1 h
          have hcode := codeOf?_of_byteOf? he hbyte
          rw [decode, toNat_byte (lt_of_codeOf? he hcode), hcode, Option.bind_some, scalar?_toNat,
            ih hrest]
          rfl

theorem ascii_proper : ascii.Proper := ⟨by decide, by decide⟩

theorem latin1_proper : latin1.Proper := ⟨by decide, by decide⟩

theorem latin9_proper : latin9.Proper := ⟨by decide, by decide⟩

theorem windows1252_proper : windows1252.Proper := ⟨by decide, by decide⟩

end SingleByte

/-! ## UTF-16 -/

theorem ByteOrder.exists_pair_eq (order : ByteOrder) {n : Nat} (h : n < 0x10000) :
    ∃ a b, order.pair n = [a, b] ∧ order.ofPair a b = n := by
  have hlow : (UInt8.ofNat (n % 0x100)).toNat = n % 0x100 := toNat_byte (by omega)
  have hhigh : (UInt8.ofNat (n / 0x100)).toNat = n / 0x100 := toNat_byte (by omega)
  cases order with
  | little =>
      refine ⟨_, _, rfl, ?_⟩
      rw [ofPair, hlow, hhigh]
      omega
  | big =>
      refine ⟨_, _, rfl, ?_⟩
      rw [ofPair, hlow, hhigh]
      omega

namespace Utf16

theorem unitsFrom_pairs (order : ByteOrder) {us : List Nat} (h : ∀ u ∈ us, u < 0x10000) :
    unitsFrom order (us.flatMap order.pair) = some us := by
  induction us with
  | nil => rfl
  | cons u us ih =>
      rw [List.forall_mem_cons] at h
      obtain ⟨a, b, hpair, hu⟩ := order.exists_pair_eq h.1
      rw [List.flatMap_cons, hpair, List.cons_append, List.singleton_append, unitsFrom, ih h.2, hu,
        Option.map_some]

theorem unit_lt {c : Char} : ∀ u ∈ unitsOf c, u < 0x10000 := by
  have hbounds := scalar_bounds c
  rw [unitsOf]
  split
  · next hsmall => exact List.forall_mem_singleton.2 hsmall
  · rw [List.forall_mem_cons, List.forall_mem_singleton]
    omega

theorem ofUnits_unitsOf (c : Char) (us : List Nat) :
    ofUnits none (unitsOf c ++ us) = (ofUnits none us).map (c :: ·) := by
  have hbounds := scalar_bounds c
  rw [unitsOf]
  split
  · rw [List.singleton_append, ofUnits, if_neg (by omega), scalar?_toNat]
  · have hcode : 0x10000 + (0xD800 + (c.toNat - 0x10000) / 0x400 - 0xD800) * 0x400 +
        (0xDC00 + (c.toNat - 0x10000) % 0x400 - 0xDC00) = c.toNat := by omega
    rw [List.cons_append, List.singleton_append, ofUnits, if_pos (by omega), ofUnits,
      if_pos (by omega), hcode, scalar?_toNat]

theorem decode_encode (order : ByteOrder) (s : Text) :
    decode order (encode order s) = some s := by
  have hunits : ∀ u ∈ s.flatMap unitsOf, u < 0x10000 := by
    intro u hu
    obtain ⟨c, -, hc⟩ := List.mem_flatMap.1 hu
    exact unit_lt u hc
  rw [decode, encode, unitsFrom_pairs order hunits, Option.bind_some]
  exact decode_flatMap unitsOf (ofUnits none) rfl ofUnits_unitsOf s

end Utf16

/-! ## UTF-32 -/

namespace Utf32

theorem decode_encodeChar (order : ByteOrder) (c : Char) (rest : List UInt8) :
    decode order (encodeChar order c ++ rest) = (decode order rest).map (c :: ·) := by
  have hbounds := scalar_bounds c
  obtain ⟨a, b, hlow, hlow'⟩ := order.exists_pair_eq (n := c.toNat % 0x10000) (by omega)
  obtain ⟨a', b', hhigh, hhigh'⟩ := order.exists_pair_eq (n := c.toNat / 0x10000) (by omega)
  cases order with
  | little =>
      have hfour : c.toNat % 0x10000 + 0x10000 * (c.toNat / 0x10000) = c.toNat := Nat.mod_add_div ..
      rw [encodeChar, hlow, hhigh]
      simp only [List.cons_append, List.nil_append]
      rw [decode, ofFour, hlow', hhigh', hfour, scalar?_toNat]
  | big =>
      have hfour : 0x10000 * (c.toNat / 0x10000) + c.toNat % 0x10000 = c.toNat := Nat.div_add_mod ..
      rw [encodeChar, hlow, hhigh]
      simp only [List.cons_append, List.nil_append]
      rw [decode, ofFour, hlow', hhigh', hfour, scalar?_toNat]

theorem decode_encode (order : ByteOrder) (s : Text) : decode order (encode order s) = some s :=
  decode_flatMap (encodeChar order) (decode order) rfl (decode_encodeChar order) s

end Utf32

/-! ## All encodings -/

namespace Encoding

variable {e : Encoding} {s : Text} {bytes : List UInt8}

theorem encode_eq_some (h : e.encode s = some bytes) :
    ∃ b, e.encodeWhole s = some b ∧ bytes = if s = [] then b else e.mark ++ b := by
  rw [encode, encodeInner] at h
  obtain ⟨b, hb, rfl⟩ := Option.map_eq_some_iff.1 h
  split at hb
  · cases hb
  · exact ⟨b, hb, rfl⟩

/-- An encoding without a mark. -/
theorem decode_of_mark_eq_nil (hmark : e.mark = []) (h : e.encodeWhole s = some bytes) :
    e.decode bytes = some s := by
  cases e with
  | utf8 =>
      obtain rfl := Option.some.inj h
      exact Utf8.decode_encode s
  | ascii => exact SingleByte.decode_encode SingleByte.ascii_proper h
  | latin1 => exact SingleByte.decode_encode SingleByte.latin1_proper h
  | latin9 => exact SingleByte.decode_encode SingleByte.latin9_proper h
  | windows1252 => exact SingleByte.decode_encode SingleByte.windows1252_proper h
  | utf16 order =>
      obtain rfl := Option.some.inj h
      exact Utf16.decode_encode order s
  | utf32 order =>
      obtain rfl := Option.some.inj h
      exact Utf32.decode_encode order s
  | utf8Signed | utf16Marked | utf32Marked => exact absurd hmark (by decide)
  | conversion => cases h

/-- An encoding with a mark, which takes off one that is there. -/
theorem decode_mark_append (hmark : e.mark ≠ []) (h : e.encodeWhole s = some bytes) :
    e.decode (e.mark ++ bytes) = some s := by
  cases e with
  | utf8Signed =>
      obtain rfl := Option.some.inj h
      exact (Utf8.decodeSigned_append _).trans (Utf8.decode_encode s)
  | utf16Marked =>
      obtain rfl := Option.some.inj h
      exact Utf16.decode_encode .little s
  | utf32Marked =>
      obtain rfl := Option.some.inj h
      exact Utf32.decode_encode .little s
  | utf8 | ascii | latin1 | latin9 | windows1252 | utf16 | utf32 | conversion =>
      exact absurd rfl hmark

/-- No mark is needed in an empty file. -/
theorem decode_of_encodeWhole_nil (h : e.encodeWhole [] = some bytes) :
    e.decode bytes = some [] := by
  cases e with
  | conversion => cases h
  | _ =>
      obtain rfl := Option.some.inj h
      rfl

/-- **What is written in an encoding can be read**, also if the text is empty or begins with the
character of the mark. -/
theorem decode_encode (h : e.encode s = some bytes) : e.decode bytes = some s := by
  obtain ⟨b, hb, rfl⟩ := encode_eq_some h
  split
  · next hnil =>
      subst hnil
      exact decode_of_encodeWhole_nil hb
  · by_cases hmark : e.mark = []
    · rw [hmark, List.nil_append]
      exact decode_of_mark_eq_nil hmark hb
    · exact decode_mark_append hmark hb

end Encoding

end Folio
