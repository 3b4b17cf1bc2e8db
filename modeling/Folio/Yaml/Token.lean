import Folio.Decimal.Integer
import Folio.Encoding.Utf8
import Folio.Yaml.Scalar

/-!
# Tokens

A document is a row of tokens: the signs that open, part and close lists and mappings, the scalars,
and what may stand in front of a node, its anchor and its tag. This module has the tokens and the
readers for those that are written as words.

* `Token.name?` reads the name of an anchor.
* `Tag.read?` reads a tag, which is a handle and what follows it.
* `Token.directive` reads a line in front of a document.
-/

namespace Folio

namespace Yaml

/-- A tag: a handle that stands for the beginning of the tag, and the rest of it. Without a handle
the rest is the whole tag. -/
structure Tag where
  handle : Text
  rest : Text

/-- A token of a document. The starts and ends of blocks are those of lists and mappings that are
marked by indentation; the flag of a scalar tells whether it is a plain one. -/
inductive Token where
  | version (v : Version)
  | handle (name meaning : Text)
  | remark
  | documentStart
  | documentEnd
  | listStart
  | mapStart
  | blockEnd
  | openList
  | closeList
  | openMap
  | closeMap
  | item
  | comma
  | key
  | value
  | anchor (name : Text)
  | alias (name : Text)
  | tag (t : Tag)
  | scalar (isPlain : Bool) (text : Text)

/-- Whether a token is a directive in front of a document. -/
def Token.isDirective : Token → Bool
  | version .. | handle .. | remark => true
  | _ => false

/-! ## Tags -/

namespace Tag

/-- The signs that may be part of a tag besides the characters of words. -/
def signs : List Char :=
  [';', '/', '?', ':', '@', '&', '=', '+', '$', ',', '.', '!', '~', '*', '\x27', '(', ')', '[', ']',
    '%']

/-- Whether a character may be part of a tag. -/
def isTagChar (v : Version) (c : Char) : Bool :=
  isWordChar c || signs.contains c || (c == '#' && v.isLater)

/-- The bytes of the part of a tag, in which a percent sign and two digits stand for a byte. -/
def bytes? : Text → Option (List UInt8)
  | [] => some []
  | '%' :: a :: b :: s => do
      let x ← Scalar.hexDigit? a
      let y ← Scalar.hexDigit? b
      return .ofNat (16 * x + y) :: (← bytes? s)
  | '%' :: _ => none
  | c :: s => (bytes? s).map (.ofNat c.toNat :: ·)

/-- Reads the part of a tag, which is not empty: as it is written, and with each of its bytes as a
character. The bytes are those of a text. -/
def part? (v : Version) (s : Source) : Option (Text × Text × Source) := do
  let text := s.upTo (isTagChar v)
  let bytes ← bytes? text
  if text = [] ∨ (Utf8.decode bytes).isNone then none
  else some (text, bytes.map fun b => Char.ofNat b.toNat, s.skip (isTagChar v))

/-- The handle of a single mark. -/
def single : Text := ['!']

/-- The handle of tags that the language defines. -/
def double : Text := ['!', '!']

/-- Reads a handle: an exclamation mark, and unless a space follows, a word and another mark. -/
def handle? : Source → Option (Text × Source)
  | [] => none
  | s :: rest =>
      if s.char ≠ '!' then none
      else if Source.atChar ' ' rest then some (single, rest)
      else
        match Source.skip isWordChar rest with
        | m :: rest' =>
            if m.char = '!' then some ('!' :: Source.upTo isWordChar rest ++ ['!'], rest') else none
        | [] => none

/-- Reads a whole tag after its opening angle bracket. -/
def verbatim? (v : Version) (s : Source) : Option (Tag × Source) := do
  let (_, text, s) ← part? v s
  match s with
  | m :: rest => if m.char = '>' then some (⟨[], text⟩, rest) else none
  | [] => none

/-- Whether another mark comes before the next space or line end. -/
def hasMark (s : Source) : Bool := (s.upTo fun c => c != ' ' && !isBreak c).contains '!'

/-- Reads a tag from its last leading mark on. It has the handle `short` unless another mark shows
that there is a longer one. -/
def short? (v : Version) (short : Text) : Source → Option (Tag × Source)
  | [] => none
  | s :: rest => do
      let (handle, rest) ← if hasMark rest then handle? (s :: rest) else some (short, rest)
      let (_, text, rest) ← part? v rest
      return (⟨handle, text⟩, rest)

/-- Reads a tag from its last leading mark on; the marks that stand alone are the whole tag. -/
def fromMark? (v : Version) (short : Text) (s : Source) : Option (Tag × Source) :=
  match s.drop 1 with
  | [] => some (⟨[], short⟩, [])
  | b :: rest =>
      if b.char = '<' then verbatim? v rest
      else if Source.atGap (b :: rest) then some (⟨[], short⟩, b :: rest)
      else short? v short s

/-- Reads a tag, which a space or a line end must follow. It begins with one leading mark or two. -/
def read? (v : Version) (s : Source) : Option (Tag × Source) := do
  let rest := s.drop 1
  let (tag, rest) ←
    if Source.atChar '!' rest then fromMark? v double rest else fromMark? v single s
  if Source.atSpace rest then some (tag, rest) else none

end Tag

namespace Token

/-! ## Names -/

/-- The signs of brackets and the comma between their items. -/
def bracketSigns : List Char := [',', '[', ']', '{', '}']

/-- Whether a character may be part of the name of an anchor: it is visible, and no sign of
brackets. -/
def isNameChar (c : Char) : Bool :=
  let n := c.toNat
  !bracketSigns.contains c && c != byteOrderMark &&
    ((0x21 ≤ n && n ≤ 0x7E) || (0xA0 ≤ n && n ≤ 0xFFFD) || 0x10000 ≤ n)

/-- Reads the name of an anchor, which is not empty. -/
def name? (s : Source) : Option (Text × Source) :=
  let rest := s.skip isNameChar
  if rest.atGap || (rest.head?.any fun a => bracketSigns.contains a.char) then
    match s.upTo isNameChar with
    | [] => none
    | name => some (name, rest)
  else none

/-! ## Directives -/

/-- Reads a number, which must not be too long. -/
def number (s : Source) : Except Error (Nat × Source) :=
  match s.upTo Char.isDigit with
  | [] => .error .malformed
  | digits =>
      if Decimal.isTooLong 10 digits then .error .illWritten
      else .ok (Decimal.natOf digits, s.skip Char.isDigit)

/-- Reads a version: two numbers with a point between them. -/
def ofVersion (s : Source) : Except Error (Token × Source) := do
  let (major, s) ← number s
  match s with
  | p :: s =>
      if p.char = '.' then
        let (minor, s) ← number s
        if s.atSpace then return (.version ⟨major, minor⟩, s) else .error .malformed
      else .error .malformed
  | [] => .error .malformed

/-- Reads a handle and what it stands for. -/
def ofHandle? (v : Version) (s : Source) : Option (Token × Source) := do
  let (name, s) ← Tag.handle? s
  if s.atChar ' ' then
    let (meaning, _, rest) ← Tag.part? v (s.skip (· == ' '))
    if rest.atSpace then some (.handle name meaning, rest) else none
  else none

/-- Whether a character may be part of the name of a directive. -/
def isDirectiveChar (c : Char) : Bool := isWordChar c || c == ':' || c == '.'

/-- Reads a directive after its percent sign, to the end of its line. One with an unknown name means
nothing. -/
def directive (v : Version) (s : Source) : Except Error (Token × Source) := do
  let word := s.upTo isDirectiveChar
  let rest := s.skip isDirectiveChar
  let (token, rest) ←
    if word = [] || !rest.atSpace then .error .malformed
    else if word = ['Y', 'A', 'M', 'L'] then ofVersion (rest.skip (· == ' '))
    else if word = ['T', 'A', 'G'] then wellFormed (ofHandle? v (rest.skip (· == ' ')))
    else .ok (.remark, rest.skip (!isBreak ·))
  return (token, ← wellFormed rest.nextLine?)

end Token

end Yaml

end Folio
