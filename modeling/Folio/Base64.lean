import Folio.Text

/-!
# Base 64

Bytes may be written with 64 characters, each of which stands for six bits; four of them make a
group of three bytes. **Signs end a text that stops inside a group**: an equality sign stands for
each character that is missing, of which there are two at most, and nothing after the last sign is
read. All other characters do not count.

* `Base64.decode?` reads the bytes of a text.

Main result: `decode?_filter`, the characters that do not count may be left out.
-/

namespace Folio

namespace Base64

/-- What a character stands for, if it is one of the 64. -/
def digit? (c : Char) : Option Nat :=
  if 'A' ≤ c ∧ c ≤ 'Z' then some (c.toNat - 'A'.toNat)
  else if 'a' ≤ c ∧ c ≤ 'z' then some (c.toNat - 'a'.toNat + 26)
  else if '0' ≤ c ∧ c ≤ '9' then some (c.toNat - '0'.toNat + 52)
  else if c = '+' then some 62
  else if c = '/' then some 63
  else none

/-- The bytes that are complete when some characters of a group have been read. -/
def bytes : List Nat → List UInt8
  | [a, b] => [.ofNat (4 * a + b / 16)]
  | [a, b, c] => [.ofNat (4 * a + b / 16), .ofNat (16 * (b % 16) + c / 4)]
  | [a, b, c, d] =>
      [.ofNat (4 * a + b / 16), .ofNat (16 * (b % 16) + c / 4), .ofNat (64 * (c % 4) + d)]
  | _ => []

/-- Reads on inside a group of which some characters and some signs after them have been read. -/
def decodeFrom (group : List Nat) (signs : Nat) : Text → Option (List UInt8)
  | [] => if group = [] then some [] else none
  | c :: s =>
      match digit? c with
      | some d =>
          if group.length < 3 then decodeFrom (group ++ [d]) 0 s
          else (decodeFrom [] 0 s).map (bytes (group ++ [d]) ++ ·)
      | none =>
          if c = '=' ∧ 2 ≤ group.length then
            if group.length + signs + 1 < 4 then decodeFrom group (signs + 1) s
            else some (bytes group)
          else decodeFrom group signs s

/-- The bytes of a text, if it does not stop inside a group. -/
def decode? (s : Text) : Option (List UInt8) := decodeFrom [] 0 s

def counts (c : Char) : Bool := (digit? c).isSome || c == '='

theorem decodeFrom_cons_of_not_counts {c : Char} (h : counts c = false) (group : List Nat)
    (signs : Nat) (s : Text) : decodeFrom group signs (c :: s) = decodeFrom group signs s := by
  simp only [counts, Bool.or_eq_false_iff, Option.isSome_eq_false_iff, Option.isNone_iff_eq_none,
    beq_eq_false_iff_ne] at h
  simp [decodeFrom, h.1, h.2]

theorem decodeFrom_filter (group : List Nat) (signs : Nat) (s : Text) :
    decodeFrom group signs (s.filter counts) = decodeFrom group signs s := by
  induction s generalizing group signs with
  | nil => rfl
  | cons c s ih =>
      by_cases h : counts c = true
      · rw [List.filter_cons_of_pos h]
        simp only [decodeFrom, ih]
      · rw [List.filter_cons_of_neg h, ih,
          decodeFrom_cons_of_not_counts (Bool.not_eq_true _ ▸ h)]

theorem decode?_filter (s : Text) : decode? (s.filter counts) = decode? s :=
  decodeFrom_filter [] 0 s

end Base64

end Folio
