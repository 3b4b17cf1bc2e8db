import Folio.Base64
import Folio.Yaml.Error
import Folio.Yaml.Timestamp
import Folio.Yaml.Version

/-!
# The meaning of scalars

What a scalar means is decided by its tag, or, if it is a plain scalar without a tag, by its text:
some words are nothing or truth values, what looks like a number or a timestamp is one, and all else
is a text. **The first version of the language has more words for truth values**, and numbers with
colons: the parts of such a number count sixty times as much as the ones after them.

A tag accepts more than a plain scalar shows: digits of all scripts, white space around a number,
and a mark for the base in front of digits whose base is known.

* `Kind.ofPlain?` finds the kind of a plain scalar, `Kind.ofTag` that of a tag.
* `Kind.atom` is the value of a scalar of some kind.
-/

namespace Folio

namespace Yaml

/-! ## Kinds -/

/-- The kinds of nodes. Pairs are lists of mappings of one entry, an ordered mapping is written as
such a list, and a set as a mapping whose keys are its items. The key `merge` takes entries from
other mappings, and `whole` is the key of what a mapping stands for. -/
inductive Kind where
  | null
  | bool
  | int
  | number
  | timestamp
  | text
  | bytes
  | list
  | pairs
  | ordered
  | set
  | map
  | merge
  | whole
  | unknown
deriving DecidableEq

namespace Kind

/-- The tags of the kinds; each begins with what the double handle stands for. -/
def tags : List (String × Kind) :=
  [("tag:yaml.org,2002:null", null), ("tag:yaml.org,2002:bool", bool),
    ("tag:yaml.org,2002:int", int), ("tag:yaml.org,2002:float", number),
    ("tag:yaml.org,2002:timestamp", timestamp), ("tag:yaml.org,2002:str", text),
    ("tag:yaml.org,2002:binary", bytes), ("tag:yaml.org,2002:seq", list),
    ("tag:yaml.org,2002:pairs", pairs), ("tag:yaml.org,2002:omap", ordered),
    ("tag:yaml.org,2002:set", set), ("tag:yaml.org,2002:map", map),
    ("tag:yaml.org,2002:merge", merge), ("tag:yaml.org,2002:value", whole)]

/-- The kind of nodes with a tag. -/
def ofTag (tag : Text) : Kind :=
  ((tags.find? fun t => t.1.toList == tag).map Prod.snd).getD unknown

/-! ## Forms of plain scalars -/

def nullWords : List Text :=
  [[], ['~'], ['n', 'u', 'l', 'l'], ['N', 'u', 'l', 'l'], ['N', 'U', 'L', 'L']]

/-- The ways to write a word: in small letters, with a capital, or in capitals. -/
def cases (word : String) : List Text :=
  let s := word.toList
  [s, (s.take 1).map Char.toUpper ++ s.drop 1, s.map Char.toUpper]

def boolWords (v : Version) : List Text :=
  (["true", "false"] ++ if v.isFirst then ["yes", "no", "on", "off", "y", "n"] else []).flatMap
    cases

/-- The words for the infinite number. -/
def infiniteWords : List Text :=
  [['.', 'i', 'n', 'f'], ['.', 'I', 'n', 'f'], ['.', 'I', 'N', 'F']]

/-- The words for what is no number. -/
def nanWords : List Text :=
  [['.', 'n', 'a', 'n'], ['.', 'N', 'a', 'N'], ['.', 'N', 'A', 'N']]

/-- Whether a character is a digit or the underscore that may stand between digits. -/
def isSpacedDigit (c : Char) : Bool := c.isDigit || c == '_'

def unsigned (s : Text) : Text := (Decimal.signOf s).2

/-- Whether a text is an exponent, with a sign if there must be one. -/
def isExponent (signed : Bool) : Text → Bool
  | c :: s =>
      (c == 'e' || c == 'E') && (!signed || s.head? == some '+' || s.head? == some '-') &&
        unsigned s != [] && (unsigned s).all Char.isDigit
  | [] => false

/-- Whether a text is a row of some characters, at least one of them. -/
def isRow (p : Char → Bool) (s : Text) : Bool := s != [] && s.all p

/-- Whether a text is a number below sixty with one digit or two. -/
def isSixtieth : Text → Bool
  | [c] => c.isDigit
  | [c, d] => c.isDigit && c < '6' && d.isDigit
  | _ => false

/-- Whether a text is a number with colons, whose first part satisfies the test. -/
def isSexagesimal (p : Text → Bool) (s : Text) : Bool :=
  match Text.splitOn ':' s with
  | head :: part :: parts => p head && (part :: parts).all isSixtieth
  | _ => false

/-- Whether a text is a row of digits and underscores that begins with a digit. -/
def isCount (s : Text) : Bool := (s.head?.any Char.isDigit) && s.all isSpacedDigit

/-- Whether a text looks like a number with a point or an exponent. In a number that begins with its
point the exponent has a sign, and in the first version the number itself has none. -/
def looksNumber (v : Version) (s : Text) : Bool :=
  let u := unsigned s
  nanWords.contains s || infiniteWords.contains u ||
    (match u with
    | '.' :: r =>
        let rest := r.dropWhile isSpacedDigit
        r.takeWhile isSpacedDigit != [] && (rest == [] || isExponent true rest) &&
          (!v.isFirst || u == s)
    | c :: r =>
        c.isDigit &&
          match r.dropWhile isSpacedDigit with
          | '.' :: r =>
              let rest := r.dropWhile isSpacedDigit
              rest == [] || isExponent false rest
          | rest => isExponent false rest
    | [] => false) ||
    (v.isFirst && u.contains '.' && (u.dropWhile (· != '.')).tail.all isSpacedDigit &&
      isSexagesimal isCount (u.takeWhile (· != '.')))

/-- Whether a character is an octal digit or an underscore. -/
def isOctal (c : Char) : Bool := (c.isDigit && c < '8') || c == '_'

/-- Whether a text looks like an integer. In the first version octal digits need no more than a zero
in front of them, and a row of decimal digits begins with another digit. -/
def looksInteger (v : Version) (s : Text) : Bool :=
  (s.head?.any fun c => c.isDigit || c == '+' || c == '-') &&
    match unsigned s with
    | '0' :: 'b' :: r => isRow (fun c => c == '0' || c == '1' || c == '_') r
    | '0' :: 'x' :: r =>
        isRow (fun c => isSpacedDigit c || ('a' ≤ c && c ≤ 'f') || ('A' ≤ c && c ≤ 'F')) r
    | '0' :: 'o' :: r => !v.isFirst && isRow isOctal r
    | r =>
        if v.isFirst then
          isRow isOctal r || (isCount r && r.head? != some '0') ||
            isSexagesimal (fun h => isCount h && h.head? != some '0') r
        else isRow isSpacedDigit r

/-- A text without the line feed at its end, unless it has nothing else. -/
def dropLineFeed (s : Text) : Text :=
  match s.reverse with
  | '\n' :: c :: r => (c :: r).reverse
  | _ => s

/-- The kind of a plain scalar in one of the two versions with meanings. A line feed at its end does
not count. -/
def ofPlain (v : Version) (s : Text) : Kind :=
  let s := dropLineFeed s
  if (boolWords v).contains s then bool
  else if looksNumber v s then number
  else if looksInteger v s then int
  else if s = ['<', '<'] then merge
  else if nullWords.contains s then null
  else if (Timestamp.read? s).any (·.isPlain s) then timestamp
  else if s = ['='] then whole
  else text

/-- The kind of a plain scalar, if the version gives it one. -/
def ofPlain? (v : Version) (s : Text) : Option Kind :=
  if v.isKnown then some (ofPlain v s) else none

/-! ## Values of scalars -/

def dropUnderscores (s : Text) : Text := s.filter (· != '_')

/-- The truth value of a word. -/
def boolOf (s : Text) : Except Error Atom :=
  let w := s.map Char.toLower
  if ["true", "yes", "y", "on"].any (·.toList == w) then .ok (.bool true)
  else if ["false", "no", "n", "off"].any (·.toList == w) then .ok (.bool false)
  else .error .unlisted

/-- The integer of a text in some base. -/
def integerOf (base : Nat) (s : Text) : Except Error Int :=
  match Decimal.integer? base s with
  | some n => .ok n
  | none => .error .illWritten

/-- The sum of the parts of a number with colons, of which each counts sixty times as much as the
one after it. -/
def sexagesimal (parts : List Int) : Int := parts.foldl (fun n part => 60 * n + part) 0

/-- The integer of a text without a sign and with a mark for its base. In the first version a zero
is such a mark. -/
def unsignedInteger (v : Version) (s : Text) : Except Error Int :=
  match s with
  | '0' :: 'b' :: r => integerOf 2 r
  | '0' :: 'x' :: r => integerOf 16 r
  | '0' :: 'o' :: r => integerOf 8 r
  | r =>
      if v.isFirst then
        match r with
        | [] => .error .unlisted
        | '0' :: _ => integerOf 8 r
        | _ =>
            if r.contains ':' then ((Text.splitOn ':' r).mapM (integerOf 10)).map sexagesimal
            else integerOf 10 r
      else integerOf 10 r

def intOf (v : Version) (s : Text) : Except Error Atom :=
  match dropUnderscores s with
  | [] => .error .unlisted
  | s =>
      let (negative, digits) := Decimal.signOf s
      (unsignedInteger v digits).map fun n => .int (if negative then -n else n)

/-- The number of a text, in which words for special numbers may stand. -/
def magnitude? (s : Text) : Option Binary64 :=
  let s := Text.plainDigits s
  let (negative, word) := Decimal.signOf s
  if word = "inf".toList ∨ word = "infinity".toList then some (.infinite negative)
  else if word = "nan".toList then some .nan
  else Decimal.read? s

/-- The number with colons, given by its parts from the last to the first: each counts sixty times
as much as the one before it. The second argument is what the next part counts. -/
def sumParts : List Binary64 → Nat → Binary64 → Binary64
  | [], _, sum => sum
  | x :: xs, scale, sum => sumParts xs (60 * scale) (sum.add (x.timesNat scale))

/-- The number of a text without a sign. -/
def unsignedNumber? (v : Version) (s : Text) : Option Binary64 :=
  if s = ".inf".toList then some (.infinite false)
  else if s = ".nan".toList then some .nan
  else if v ≠ .second ∧ s.contains ':' then
    ((Text.splitOn ':' s).mapM magnitude?).map fun parts =>
      sumParts parts.reverse 1 (.finite false 0 Binary64.leastExponent)
  else magnitude? s

/-- The number of the text of a node. What is no number has its origin there, unless it is written
as the word for it. -/
def numberOf (v : Version) (node : Nat) (s : Text) : Except Error Atom :=
  match (dropUnderscores s).map Char.toLower with
  | [] => .error .unlisted
  | s =>
      let (negative, word) := Decimal.signOf s
      match unsignedNumber? v word with
      | some x =>
          let origin := if word = ".nan".toList then 0 else node + 1
          .ok (.number (if negative then x.neg else x) origin)
      | none => .error .illWritten

/-- The day or the moment of a text. -/
def timestampOf (s : Text) : Except Error Atom :=
  match Timestamp.read? (dropLineFeed s) with
  | none => .error .malformed
  | some t => t.atom

/-- The bytes that a text writes in base 64. -/
def bytesOf (s : Text) : Except Error Atom :=
  match Base64.decode? s with
  | some bs => if s.all (·.toNat < 0x80) then .ok (.bytes bs) else .error .malformed
  | none => .error .malformed

/-- The value of the text of a node of some kind. -/
def atom (k : Kind) (v : Version) (node : Nat) (s : Text) : Except Error Atom :=
  match k with
  | null => .ok .null
  | bool => boolOf s
  | int => intOf v s
  | number => numberOf v node s
  | timestamp => timestampOf s
  | text => .ok (.text s)
  | bytes => bytesOf s
  | list | pairs | ordered | set | map | merge | whole | unknown => .error .malformed

end Kind

end Yaml

end Folio
