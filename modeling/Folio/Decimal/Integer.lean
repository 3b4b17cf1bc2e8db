import Folio.Decimal.Binary64
import Folio.Text.Digit

/-!
# Integers

An integer is written with the digits of a base, which may have an underscore between two of them.
A sign may stand in front, and white space around. **A mark in front of the digits names their
base**: `0x` stands for 16, `0o` for 8 and `0b` for 2. It may be left out where the base is known;
where it is not known, digits without a mark are decimal, and do not begin with a zero unless all of
them are zeros.

* `Decimal.integer?` reads an integer of a known base.
* `Decimal.literal?` reads an integer whose mark tells the base.
-/

namespace Folio

namespace Decimal

/-! ## Digits -/

/-- The number that a digit or a letter stands for, in capitals or small letters. -/
def digitValue? (c : Char) : Option Nat :=
  if '0' ≤ c ∧ c ≤ '9' then some (c.toNat - '0'.toNat)
  else if 'a' ≤ c ∧ c ≤ 'z' then some (c.toNat - 'a'.toNat + 10)
  else if 'A' ≤ c ∧ c ≤ 'Z' then some (c.toNat - 'A'.toNat + 10)
  else none

/-- The number that a digit of a base stands for. -/
def digitIn? (base : Nat) (c : Char) : Option Nat := (digitValue? c).filter (· < base)

/-- Goes on with the digits of a natural number, of which those read so far write `n`. -/
def digitsFrom? (base n : Nat) : Text → Option Nat
  | [] => some n
  | '_' :: c :: s => (digitIn? base c).bind fun d => digitsFrom? base (base * n + d) s
  | c :: s => (digitIn? base c).bind fun d => digitsFrom? base (base * n + d) s

/-- The greatest number of decimal digits of an integer. -/
def digitLimit : Nat := 4300

/-- Whether some digits are too many; this matters only where reading them takes more than putting
them side by side. -/
def isTooLong (base : Nat) (s : Text) : Bool :=
  base == 10 && decide (digitLimit < (s.filter (· != '_')).length)

/-- Reads the digits of a natural number. -/
def natural? (base : Nat) : Text → Option Nat
  | [] => none
  | c :: s =>
      if isTooLong base (c :: s) then none
      else (digitIn? base c).bind fun d => digitsFrom? base d s

/-! ## Marks -/

/-- The base that a letter after a zero stands for. -/
def markedBase? (c : Char) : Option Nat :=
  if c = 'x' ∨ c = 'X' then some 16
  else if c = 'o' ∨ c = 'O' then some 8
  else if c = 'b' ∨ c = 'B' then some 2
  else none

/-- The base in the mark of a text, and the digits after it; an underscore may stand between. -/
def marked? : Text → Option (Nat × Text)
  | '0' :: m :: s =>
      (markedBase? m).map fun base =>
        (base,
          match s with
          | '_' :: r => r
          | r => r)
  | _ => none

/-- Puts a sign in front of a natural number. -/
def withSign (negative : Bool) (n : Nat) : Int := if negative then -(n : Int) else n

/-- Reads an integer of a known base. -/
def integer? (base : Nat) (s : Text) : Option Int :=
  let (negative, u) := signOf (Text.plainDigits s)
  let digits :=
    match marked? u with
    | some (b, digits) => if b = base then digits else u
    | none => u
  (natural? base digits).map (withSign negative)

/-- Reads an integer whose mark, if it has one, tells the base. -/
def literal? (s : Text) : Option Int :=
  let (negative, u) := signOf (Text.plainDigits s)
  let n? :=
    match marked? u with
    | some (base, digits) => natural? base digits
    | none => (natural? 10 u).filter fun n => n == 0 || u.head? != some '0'
  n?.map (withSign negative)

end Decimal

end Folio
