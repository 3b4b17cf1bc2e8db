import Folio.Text

/-!
# The source of a document

Settings are written as a YAML document. What a character of it means depends on where it stands:
indentation opens and closes lists and mappings, and a key and its colon stand on one line. So a
source is the list of the characters of a text, **each with its line, its column and its index**,
and every reader below is a recursion on that list that never counts.

* `Source.ofText` places the characters of a text.
* `Source.atGap`, `Source.atSpace` and `Source.atMarker` look at what comes next.

Main result: `text_ofText`, placing loses nothing but a byte order mark.
-/

namespace Folio

namespace Yaml

/-! ## Characters -/

/-- Whether a character is a line end. -/
def isBreak (c : Char) : Bool := c ∈ ['\n', '\u0085', '\u2028', '\u2029']

/-- Whether a character is a space or a tab. -/
def isGap (c : Char) : Bool := c == ' ' || c == '\t'

/-- Whether a character may be part of a word. -/
def isWordChar (c : Char) : Bool := c.isAlphanum || c == '_' || c == '-'

/-- What a line end is read as: a line feed, unless it is a separator of lines or paragraphs. -/
def lineEnd (c : Char) : Text := if c = '\u2028' ∨ c = '\u2029' then [c] else ['\n']

/-- Whether a document may hold a character. -/
def isAllowed (c : Char) : Bool :=
  let n := c.toNat
  n == 0x09 || n == 0x0A || n == 0x0D || n == 0x85 || (0x20 ≤ n && n ≤ 0x7E) ||
    (0xA0 ≤ n && n ≤ 0xFFFD) || 0x10000 ≤ n

def byteOrderMark : Char := '\ufeff'

/-! ## Places -/

/-- A place in a text; everything is counted from zero. -/
structure Place where
  line : Nat
  column : Nat
  index : Nat

namespace Place

def start : Place := ⟨0, 0, 0⟩

/-- The place after a character. Lines are counted by line feeds only, and a byte order mark takes
no column. -/
def after (c : Char) (p : Place) : Place :=
  if c = '\n' then ⟨p.line + 1, 0, p.index + 1⟩
  else ⟨p.line, if c = byteOrderMark then p.column else p.column + 1, p.index + 1⟩

end Place

/-- A character and where it stands. -/
structure Spot extends Place where
  char : Char

/-- What is still to be read of a text. -/
abbrev Source := List Spot

namespace Source

/-- The characters of a text that begins at some place. -/
def place (p : Place) : Text → Source
  | [] => []
  | c :: s => ⟨p, c⟩ :: place (p.after c) s

/-- The text without a byte order mark at its beginning. -/
def dropMark : Text → Text
  | [] => []
  | c :: s => if c = byteOrderMark then s else c :: s

def ofText (s : Text) : Source := place .start (dropMark s)

def text (s : Source) : Text := s.map Spot.char

theorem text_place (s : Text) (p : Place) : text (place p s) = s := by
  induction s generalizing p with
  | nil => rfl
  | cons c s ih => simpa [place, text] using ih (p.after c)

theorem text_ofText (s : Text) : (ofText s).text = dropMark s := text_place _ _

/-! ## Looking ahead -/

/-- Whether the source ends here or goes on with a space, a tab or the end of a line. -/
def atGap : Source → Bool
  | [] => true
  | s :: _ => isGap s.char || isBreak s.char

/-- Whether the source ends here or goes on with a space or a line end. -/
def atSpace : Source → Bool
  | [] => true
  | s :: _ => s.char == ' ' || isBreak s.char

/-- Whether the character `c` comes next. -/
def atChar (c : Char) : Source → Bool
  | [] => false
  | s :: _ => s.char == c

/-- Whether the character `c` comes next three times with nothing attached to it. -/
def atTriple (c : Char) : Source → Bool
  | a :: b :: d :: rest => a.char == c && b.char == c && d.char == c && atGap rest
  | _ => false

/-- Whether a sign comes next that begins or ends a document if a line begins here. -/
def atMarker (s : Source) : Bool := atTriple '-' s || atTriple '.' s

/-- The source from the next character on that fails the test. -/
def skip (p : Char → Bool) (s : Source) : Source := s.dropWhile fun a => p a.char

/-- The text up to the next character that fails the test. -/
def upTo (p : Char → Bool) (s : Source) : Text := text (s.takeWhile fun a => p a.char)

/-- The source after the end of this line, on which only a comment may stand. -/
def nextLine? (s : Source) : Option Source :=
  let s := s.skip (· == ' ')
  let s := if s.atChar '#' then s.skip (!isBreak ·) else s
  match s with
  | [] => some []
  | a :: rest => if isBreak a.char then some rest else none

/-- The place after a source that begins at some place. -/
def placeAfter (p : Place) (s : Source) : Place :=
  match s.getLast? with
  | some a => a.toPlace.after a.char
  | none => p

end Source

end Yaml

end Folio
