import Folio.Calendar
import Folio.Decimal.Integer

/-!
# Atoms

Atoms are the values without parts: nothing, truth values, numbers, texts, bytes, days and moments.
An atom has two texts. `Atom.toText` is what is put into a document for it; a text stands for itself
there. `Atom.shown` is how an atom appears inside a list or a mapping, where texts are quoted.

**Numbers are the same if they are equal**, whatever their kind: the integer one, the number one and
the truth value true are the same. What is no number differs from all else, and even from what is no
number and has another origin.

* `Atom.isEmpty` holds of the atoms that count as nothing.
* `Atom.same` is the equality under which the keys of a mapping are different.

Main result: `same_text`, two texts are the same just if they are equal.
-/

namespace Folio

/-- A value without parts. A number carries a mark for its origin, and a moment may be that of a
zone. -/
inductive Atom where
  | null
  | bool (b : Bool)
  | int (i : Int)
  | number (x : Binary64) (origin : Nat)
  | text (s : Text)
  | bytes (bs : List UInt8)
  | day (d : Day)
  | moment (d : Day) (c : Clock) (z : Option Zone)
deriving DecidableEq

namespace Atom

/-! ## Texts -/

/-- Numbers are written positionally from `0.0001` to below `10 ^ 16`, otherwise with an exponent of
two digits. -/
def numberStyle : Decimal.Style where
  leastPoint := -3
  greatestPoint := 16
  exponentWidth := 2
  infinite := ['i', 'n', 'f']
  nan := ['n', 'a', 'n']

/-- What separates the items of a list. -/
def comma : Text := [',', ' ']

/-- A word with arguments in parentheses. -/
def call (word : String) (args : List Text) : Text :=
  word.toList ++ '(' :: Text.join comma args ++ [')']

def numbers (ns : List Nat) : List Text := ns.map (Nat.toDigits 10)

/-- A difference of times, as days, which may be negative, and the seconds after them. -/
def difference (minutes : Int) : Text :=
  let seconds := 60 * minutes
  let days := seconds.fdiv 86400
  let rest := seconds.fmod 86400
  call "datetime.timedelta"
    (if minutes = 0 then [['0']]
    else
      (if days = 0 then [] else ["days=".toList ++ Decimal.ofInt days]) ++
        (if rest = 0 then [] else ["seconds=".toList ++ Decimal.ofInt rest]))

def shownZone (z : Zone) : Text :=
  "tzinfo=".toList ++ call "datetime.timezone" [difference z.ahead, z.name.quoted]

/-- How an atom appears inside a list or a mapping. -/
def shown : Atom → Text
  | null => "None".toList
  | bool b => (if b then "True" else "False").toList
  | int i => Decimal.ofInt i
  | number x _ => Decimal.text numberStyle x
  | text s => s.quoted
  | bytes bs => Text.quotedBytes bs
  | day d => call "datetime.date" (numbers [d.year, d.month, d.day])
  | moment d c z =>
      call "datetime.datetime"
        (numbers ([d.year, d.month, d.day] ++ c.parts) ++ (z.map shownZone).toList)

/-- What is put into a document for an atom. -/
def toText : Atom → Text
  | text s => s
  | day d => d.text
  | moment d c z => d.text ++ ' ' :: c.text ++ (z.map Zone.text).getD []
  | a => a.shown

/-- Whether an atom has a text; an integer with more decimal digits than can be read has none. -/
def hasText : Atom → Bool
  | int i => decide (i.natAbs < Nat.pow 10 Decimal.digitLimit)
  | _ => true

/-! ## Emptiness and equality -/

/-- Whether an atom counts as nothing: null, false, zero, and what has no characters or bytes. -/
def isEmpty : Atom → Bool
  | null => true
  | bool b => !b
  | int i => i == 0
  | number (.finite _ m _) _ => m == 0
  | text s => s == []
  | bytes bs => bs.isEmpty
  | _ => false

/-- The integer to which an atom is equal, if there is one; truth values are the numbers 0 and 1. -/
def integer? : Atom → Option Int
  | bool b => some (if b then 1 else 0)
  | int i => some i
  | number x _ => x.toInt?
  | _ => none

/-- Whether two moments are the same: those with zones at one instant, and those without that are
written the same. -/
def sameMoment : Day × Clock × Option Zone → Day × Clock × Option Zone → Bool
  | (d, c, some z), (e, k, some y) => instant d c z == instant e k y
  | (d, c, none), (e, k, none) => d == e && c == k
  | _, _ => false

/-- Whether two numbers are the same: equal, or of one origin. -/
def sameNumber (x y : Binary64) (origin other : Nat) : Bool :=
  x == y && (x != .nan || origin == other)

/-- Whether two atoms are the same key. -/
def same : Atom → Atom → Bool
  | null, null => true
  | text s, text t => s == t
  | bytes bs, bytes cs => bs == cs
  | day d, day e => d == e
  | moment d c z, moment e k y => sameMoment (d, c, z) (e, k, y)
  | number x o, number y p =>
      match x.toInt?, y.toInt? with
      | some i, some j => i == j
      | none, none => sameNumber x y o p
      | _, _ => false
  | a, b =>
      match a.integer?, b.integer? with
      | some i, some j => i == j
      | _, _ => false

theorem same_text (s t : Text) : same (text s) (text t) = true ↔ s = t := by simp [same]

end Atom

end Folio
