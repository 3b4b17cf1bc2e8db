import Folio.Decimal.Integer

/-!
# Numerals

A numeral is a text that writes a number: a decimal, a word for what is infinite or no number, or
the sum of such a number and another one times the imaginary unit, which is the letter `j`. **An
underscore may stand between two digits** and counts for nothing. White space may stand around a
numeral, and its digits may be those of any script.

* `Decimal.afterReal?` reads a real number at the beginning of a text.
* `Decimal.isNumeral` tells whether a text is a numeral, and `Decimal.isRange` whether it is a row
  of integers with colons between them.
-/

namespace Folio

namespace Decimal

/-! ## Real numbers -/

/-- The words for numbers that no digits write. A longer word comes before its beginning. -/
def words : List Text := ["infinity".toList, "inf".toList, "nan".toList]

/-- What follows a word, in capitals or small letters. -/
def afterWord? (s word : Text) : Option Text :=
  if (s.take word.length).map Char.toLower = word then some (s.drop word.length) else none

/-- What follows an exponent, if there is one. -/
def afterExponent : Text → Text
  | [] => []
  | c :: s =>
      let digits := (signOf s).2
      if (c = 'e' ∨ c = 'E') ∧ digits.head?.any Char.isDigit then digits.dropWhile Char.isDigit
      else c :: s

/-- What follows some digits, of which one at least must be there, with a point among them, and an
exponent. -/
def afterDigits? (s : Text) : Option Text :=
  let whole := s.takeWhile Char.isDigit
  match s.dropWhile Char.isDigit with
  | '.' :: r =>
      if whole = [] ∧ r.takeWhile Char.isDigit = [] then none
      else some (afterExponent (r.dropWhile Char.isDigit))
  | r => if whole = [] then none else some (afterExponent r)

/-- What follows the real number, with a sign or without one, at the beginning of a text. -/
def afterReal? (s : Text) : Option Text :=
  let u := (signOf s).2
  match words.findSome? (afterWord? u) with
  | some r => some r
  | none => afterDigits? u

/-! ## Numerals -/

/-- A text without underscores, each of which must stand between two digits. The flag tells whether
a digit stands in front of the text. -/
def dropUnderscores? (afterDigit : Bool) : Text → Option Text
  | [] => some []
  | c :: s =>
      if c = '_' then
        if afterDigit && s.head?.any Char.isDigit then dropUnderscores? false s else none
      else (dropUnderscores? c.isDigit s).map (c :: ·)

/-- Whether a text is the imaginary unit. -/
def isUnit (s : Text) : Bool := s == ['j'] || s == ['J']

/-- Whether a text is the second part of a sum: a sign and a multiple of the imaginary unit. -/
def isSecondPart : Text → Bool
  | c :: s =>
      (c == '+' || c == '-') &&
        match afterReal? (c :: s) with
        | some r => isUnit r
        | none => isUnit s
  | [] => false

/-- Whether a text is a numeral. -/
def isNumeral (s : Text) : Bool :=
  match dropUnderscores? false (Text.plainDigits s) with
  | none => false
  | some s =>
      match afterReal? s with
      | some r => r == [] || isUnit r || isSecondPart r
      | none => isUnit (signOf s).2

/-- Whether a text is a row of two or three integers with colons between them, each of which may be
left out. -/
def isRange (s : Text) : Bool :=
  let parts := Text.splitOn ':' s
  (parts.length == 2 || parts.length == 3) &&
    parts.all fun part => part == [] || (integer? 10 part).isSome

end Decimal

end Folio
