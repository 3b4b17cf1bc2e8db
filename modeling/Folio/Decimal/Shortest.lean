import Folio.Decimal.Binary64

/-!
# The shortest decimal of a number

Many decimals are read as the same number of double precision: all between the middles of the gaps
to its neighbours, and the middles themselves if its significand is even. **The decimal written for
it is the one with the fewest digits among these**, and the nearest of those. For each count of
digits only the two decimals around the number have to be tried.

How the digits are laid out, positionally or with an exponent, is a matter of style: a `Style` holds
these decisions.
-/

namespace Folio

namespace Decimal

/-! ## Choosing the digits -/

/-- The number `k` with `10 ^ (k - 1) ≤ x < 10 ^ k`, for a positive ratio. -/
def magnitude (x : Ratio) : Int :=
  if x.2 ≤ x.1 then Ratio.digitCount (x.1 / x.2)
  else
    let k : Int := 1 - Ratio.digitCount (x.2 / x.1)
    let y := x.scale 10 (-k)
    if y.2 ≤ y.1 then k + 1 else k

/-- A number `m * 2 ^ q` with the interval of the numbers that are read as it, and whether the ends
of the interval belong to it. -/
structure Target where
  value : Ratio
  low : Ratio
  high : Ratio
  closed : Bool

namespace Target

/-- The target of a positive number. -/
def of (m : Nat) (q : Int) : Target :=
  let quarter (n : Nat) : Ratio := Ratio.scale 2 (q - 2) (n, 1)
  let step := if m = Nat.pow 2 52 ∧ Binary64.leastExponent < q then 1 else 2
  ⟨quarter (4 * m), quarter (4 * m - step), quarter (4 * m + 2), m % 2 == 0⟩

/-- Whether a ratio lies in the interval. -/
def holds (t : Target) (x : Ratio) : Bool :=
  if t.closed then
    decide (t.low.1 * x.2 ≤ x.1 * t.low.2) && decide (x.1 * t.high.2 ≤ t.high.1 * x.2)
  else
    decide (t.low.1 * x.2 < x.1 * t.low.2) && decide (x.1 * t.high.2 < t.high.1 * x.2)

/-- The better of the two multiples of `10 ^ s` around the number, if one lies in the interval. -/
def onGrid? (t : Target) (s : Int) : Option Nat :=
  let y := t.value.scale 10 (-s)
  let f := y.1 / y.2
  match t.holds (Ratio.scale 10 s (f, 1)), t.holds (Ratio.scale 10 s (f + 1, 1)) with
  | true, true => some y.nearest
  | true, false => some f
  | false, true => some (f + 1)
  | false, false => none

/-- Tries grids one after another, each ten times finer than the one before. -/
def search (t : Target) : Nat → Int → Nat × Int
  | 0, s => ((t.value.scale 10 (-s)).nearest, s)
  | tries + 1, s =>
      match t.onGrid? s with
      | some n => (n, s)
      | none => search t tries (s - 1)

end Target

/-- Decimal digits without zeros at the end, with the place of the point: the number is `0.d₁d₂… *
10 ^ point`. -/
structure Digits where
  digits : Text
  point : Int
deriving DecidableEq

/-- The digits of a natural number times a power of ten. -/
def Digits.of (n : Nat) (s : Int) : Digits :=
  let ds := Nat.toDigits 10 n
  ⟨(ds.reverse.dropWhile (· == '0')).reverse, s + ds.length⟩

/-- The fewest digits that are read as the positive number `m * 2 ^ q`. -/
def shortest (m : Nat) (q : Int) : Digits :=
  let t := Target.of m q
  let found := t.search 16 (magnitude t.value - 1)
  Digits.of found.1 found.2

/-! ## Laying them out -/

/-- How numbers are laid out: the least and the greatest place of the point that are written
positionally, the least number of digits of an exponent, and two texts. -/
structure Style where
  leastPoint : Int
  greatestPoint : Int
  exponentWidth : Nat
  infinite : Text
  nan : Text

/-- A natural number with zeros in front up to a width. -/
def padded (width n : Nat) : Text :=
  let ds := Nat.toDigits 10 n
  List.replicate (width - ds.length) '0' ++ ds

/-- Some digits with a point among them; at least one digit stands on either side of it. -/
def positional (d : Digits) : Text :=
  if d.point ≤ 0 then '0' :: '.' :: (List.replicate (-d.point).toNat '0' ++ d.digits)
  else
    let n := d.point.toNat
    let whole := d.digits.take n ++ List.replicate (n - d.digits.length) '0'
    let fraction := d.digits.drop n
    whole ++ '.' :: (if fraction = [] then ['0'] else fraction)

/-- One digit, a point and the others if there are any, and a signed exponent. -/
def exponential (style : Style) (d : Digits) : Text :=
  let e := d.point - 1
  let fraction := d.digits.drop 1
  d.digits.take 1 ++ (if fraction = [] then [] else '.' :: fraction) ++
    'e' :: (if e < 0 then '-' else '+') :: padded style.exponentWidth e.natAbs

def text (style : Style) : Binary64 → Text
  | .nan => style.nan
  | .infinite negative => (if negative then ['-'] else []) ++ style.infinite
  | .finite negative m q =>
      let d : Digits := if m = 0 then ⟨['0'], 1⟩ else shortest m q
      (if negative then ['-'] else []) ++
        (if style.leastPoint ≤ d.point ∧ d.point ≤ style.greatestPoint then positional d
        else exponential style d)

def ofInt (i : Int) : Text :=
  (if i < 0 then ['-'] else []) ++ Nat.toDigits 10 i.natAbs

end Decimal

end Folio
