import Folio.Text

/-!
# Numbers of double precision

A finite number of double precision is a sign and a significand below 2 ^ 53 times a power of two
not below 2 ^ -1074. **A decimal is read as the nearest such number**, and of two that are equally
near as the one with the even significand; what lies beyond the largest is infinite.

All arithmetic is on natural numbers: a positive ratio is the pair of its parts.
-/

namespace Folio

/-! ## Ratios -/

/-- A numerator and a denominator, which is not zero. -/
abbrev Ratio := Nat × Nat

namespace Ratio

/-- The ratio times a power of `base`. -/
def scale (base : Nat) (e : Int) (x : Ratio) : Ratio :=
  match e with
  | .ofNat n => (x.1 * base.pow n, x.2)
  | .negSucc n => (x.1, x.2 * base.pow (n + 1))

/-- The nearest natural number, the even one of two. -/
def nearest (x : Ratio) : Nat :=
  let f := x.1 / x.2
  let r := x.1 % x.2
  if 2 * r < x.2 then f
  else if x.2 < 2 * r then f + 1
  else if f % 2 = 0 then f
  else f + 1

/-- The number of decimal digits of a natural number. -/
def digitCount (n : Nat) : Nat := (Nat.toDigits 10 n).length

end Ratio

/-! ## Numbers -/

/-- A number of double precision. A finite one is `m * 2 ^ q`, or its opposite. -/
inductive Binary64 where
  | finite (negative : Bool) (m : Nat) (q : Int)
  | infinite (negative : Bool)
  | nan
deriving DecidableEq

namespace Binary64

def leastExponent : Int := -1074

def greatestExponent : Int := 971

/-- The number nearest to a positive ratio, or to its opposite. -/
def ofRatio (negative : Bool) (x : Ratio) : Binary64 :=
  let guess : Int := (x.1.log2 : Int) - x.2.log2
  let scaled := x.scale 2 (-guess)
  let e := if scaled.1 < scaled.2 then guess - 1 else guess
  let q := max (e - 52) leastExponent
  let m := (x.scale 2 (-q)).nearest
  let (m, q) := if m = Nat.pow 2 53 then (Nat.pow 2 52, q + 1) else (m, q)
  if greatestExponent < q then infinite negative else finite negative m q

/-- The number nearest to `digits * 10 ^ e`, or to its opposite. -/
def ofDecimal (negative : Bool) (digits : Nat) (e : Int) : Binary64 :=
  let size := (Ratio.digitCount digits : Int) + e
  if digits = 0 ∨ size < -330 then finite negative 0 leastExponent
  else if 310 < size then infinite negative
  else ofRatio negative (Ratio.scale 10 e (digits, 1))

/-- The integer that the number is equal to, if there is one. -/
def toInt? : Binary64 → Option Int
  | finite negative m q =>
      let x := Ratio.scale 2 q (m, 1)
      if x.1 % x.2 = 0 then
        let n : Int := (x.1 / x.2 : Nat)
        some (if negative then -n else n)
      else none
  | _ => none

def neg : Binary64 → Binary64
  | finite negative m q => finite (!negative) m q
  | infinite negative => infinite (!negative)
  | nan => nan

/-! ### Sums and multiples -/

/-- The number nearest to `n * 2 ^ q`. -/
def ofScaled (n q : Int) : Binary64 :=
  if n = 0 then finite false 0 leastExponent
  else ofRatio (decide (n < 0)) (Ratio.scale 2 q (n.natAbs, 1))

/-- A significand with its sign, for an exponent that is lower by `shift`. -/
def signed (negative : Bool) (m shift : Nat) : Int :=
  let n : Int := (m * Nat.pow 2 shift : Nat)
  if negative then -n else n

/-- The number nearest to the sum of two numbers. -/
def add : Binary64 → Binary64 → Binary64
  | finite a m q, finite b n r =>
      let least := min q r
      ofScaled (signed a m (q - least).toNat + signed b n (r - least).toNat) least
  | infinite a, infinite b => if a = b then infinite a else nan
  | infinite a, finite _ _ _ | finite _ _ _, infinite a => infinite a
  | _, _ => nan

/-- The number nearest to a positive multiple of a number. -/
def timesNat (k : Nat) : Binary64 → Binary64
  | finite negative m q =>
      if m = 0 then finite negative m q else ofScaled (signed negative (m * k) 0) q
  | x => x

end Binary64

/-! ## Reading decimals -/

namespace Decimal

/-- The number that a row of digits writes. -/
def natOf (digits : Text) : Nat := digits.foldl (fun n c => 10 * n + (c.toNat - '0'.toNat)) 0

/-- Takes the sign off a text. -/
def signOf : Text → Bool × Text
  | '-' :: s => (true, s)
  | '+' :: s => (false, s)
  | s => (false, s)

/-- Reads the exponent that follows the digits of a number. -/
def exponentOf : Text → Option Int
  | [] => some 0
  | c :: s =>
      if c = 'e' ∨ c = 'E' then
        let (negative, digits) := signOf s
        if digits ≠ [] ∧ digits.all Char.isDigit then
          some (if negative then -(natOf digits : Int) else natOf digits)
        else none
      else none

/-- Reads a number written with digits, a point and an exponent, all but some digits of which may
be left out. -/
def read? (s : Text) : Option Binary64 :=
  let (negative, s) := signOf s
  let whole := s.takeWhile Char.isDigit
  let s := s.dropWhile Char.isDigit
  let (fraction, s) :=
    match s with
    | '.' :: r => (r.takeWhile Char.isDigit, r.dropWhile Char.isDigit)
    | r => ([], r)
  if whole = [] ∧ fraction = [] then none
  else
    (exponentOf s).map fun e =>
      Binary64.ofDecimal negative (natOf (whole ++ fraction)) (e - (fraction.length : Int))

end Decimal

end Folio
