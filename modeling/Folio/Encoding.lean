import Folio.Encoding.SingleByte
import Folio.Encoding.Wide
import Folio.Text.Half

/-!
# Encodings

How the texts of files are written in bytes, and the names by which encodings are asked for. In a
name, case does not matter, and neither does what separates its words. Some known names stand for
conversions that have no texts, only bytes; **they are found, but nothing can be read or written
with them.** The encodings for texts are those of Unicode and of Western Europe. A name of another
one is unknown here, and no build is opened with it.

* `Encoding.find` looks a name up.
* `Encoding.decode` and `Encoding.encode` read and write texts.
-/

namespace Folio

/-- A way to write texts in bytes. UTF-8 may begin with a signature, and UTF-16 and UTF-32 with a
mark for the order of bytes. A conversion has no texts. -/
inductive Encoding where
  | utf8
  | utf8Signed
  | ascii
  | latin1
  | latin9
  | windows1252
  | utf16Marked
  | utf16 (order : ByteOrder)
  | utf32Marked
  | utf32 (order : ByteOrder)
  | conversion
deriving DecidableEq

namespace Encoding

/-! ## Texts and bytes -/

def isText : Encoding → Bool
  | conversion => false
  | _ => true

/-- The text of some bytes, if they are the bytes of one. -/
def decode : Encoding → List UInt8 → Option Text
  | utf8, b => Utf8.decode b
  | utf8Signed, b => Utf8.decodeSigned b
  | ascii, b => SingleByte.ascii.decode b
  | latin1, b => SingleByte.latin1.decode b
  | latin9, b => SingleByte.latin9.decode b
  | windows1252, b => SingleByte.windows1252.decode b
  | utf16Marked, b => Utf16.decodeMarked b
  | utf16 order, b => Utf16.decode order b
  | utf32Marked, b => Utf32.decodeMarked b
  | utf32 order, b => Utf32.decode order b
  | conversion, _ => none

/-- The bytes of a text of characters that all stand for themselves. -/
def encodeWhole : Encoding → Text → Option (List UInt8)
  | utf8, s | utf8Signed, s => some (Utf8.encode s)
  | ascii, s => SingleByte.ascii.encode s
  | latin1, s => SingleByte.latin1.encode s
  | latin9, s => SingleByte.latin9.encode s
  | windows1252, s => SingleByte.windows1252.encode s
  | utf16Marked, s => some (Utf16.encode .little s)
  | utf16 order, s => some (Utf16.encode order s)
  | utf32Marked, s => some (Utf32.encode .little s)
  | utf32 order, s => some (Utf32.encode order s)
  | conversion, _ => none

/-- The bytes of a text that does not stand at the start of a file, if every character has some;
half a pair has none. -/
def encodeInner (e : Encoding) (s : Text) : Option (List UInt8) :=
  if s.any Half.isHalf then none else e.encodeWhole s

/-- What is written once in front of a text that is not empty. -/
def mark : Encoding → List UInt8
  | utf8Signed => Utf8.signature
  | utf16Marked => Utf16.mark .little
  | utf32Marked => Utf32.mark .little
  | _ => []

/-- The bytes of a file that holds this text. -/
def encode (e : Encoding) (s : Text) : Option (List UInt8) :=
  (e.encodeInner s).map fun b => if s = [] then b else e.mark ++ b

/-! ## Names -/

/-- A letter or digit of ASCII, or a dot. -/
def isNameChar (c : Char) : Bool := c.isAlphanum || c == '.'

/-- The words of a name: the runs of letters, digits and dots. -/
def wordsOf : Text → List Text
  | [] => []
  | c :: s =>
      if isNameChar c then
        match s with
        | d :: _ =>
            if isNameChar d then
              match wordsOf s with
              | [] => [[c]]
              | w :: ws => (c :: w) :: ws
            else [c] :: wordsOf s
        | [] => [[c]]
      else wordsOf s

/-- A name in lower case with one underscore between its words. -/
def plainName (name : Text) : Text :=
  Text.join ['_'] (wordsOf (name.map Char.toLower))

/-- The names that are understood as they stand. -/
def names : List (String × Encoding) :=
  [("utf_8", utf8), ("utf_8_sig", utf8Signed), ("ascii", ascii), ("latin_1", latin1),
    ("iso8859_1", latin1), ("iso8859_15", latin9), ("cp1252", windows1252), ("utf_16", utf16Marked),
    ("utf_16_le", utf16 .little), ("utf_16_be", utf16 .big), ("utf_32", utf32Marked),
    ("utf_32_le", utf32 .little), ("utf_32_be", utf32 .big), ("hex_codec", conversion),
    ("rot_13", conversion), ("base64_codec", conversion), ("zlib_codec", conversion),
    ("bz2_codec", conversion), ("quopri_codec", conversion), ("uu_codec", conversion)]

/-- Further names, in which a dot may stand for an underscore. -/
def aliases : List (String × Encoding) :=
  [("u8", utf8), ("utf", utf8), ("utf8", utf8), ("utf8_ucs2", utf8), ("utf8_ucs4", utf8),
    ("cp65001", utf8), ("646", ascii), ("ansi_x3.4_1968", ascii), ("ansi_x3_4_1968", ascii),
    ("ansi_x3.4_1986", ascii), ("cp367", ascii), ("csascii", ascii), ("ibm367", ascii),
    ("iso646_us", ascii), ("iso_646.irv_1991", ascii), ("iso_ir_6", ascii), ("us", ascii),
    ("us_ascii", ascii), ("8859", latin1), ("cp819", latin1), ("csisolatin1", latin1),
    ("ibm819", latin1), ("iso8859", latin1), ("iso8859_1", latin1), ("iso_8859_1", latin1),
    ("iso_8859_1_1987", latin1), ("iso_ir_100", latin1), ("l1", latin1), ("latin", latin1),
    ("latin1", latin1), ("iso_8859_15", latin9), ("l9", latin9), ("latin9", latin9),
    ("1252", windows1252), ("windows_1252", windows1252), ("u16", utf16Marked),
    ("utf16", utf16Marked), ("unicodelittleunmarked", utf16 .little), ("utf_16le", utf16 .little),
    ("unicodebigunmarked", utf16 .big), ("utf_16be", utf16 .big), ("u32", utf32Marked),
    ("utf32", utf32Marked), ("utf_32le", utf32 .little), ("utf_32be", utf32 .big),
    ("hex", conversion), ("rot13", conversion), ("base64", conversion), ("base_64", conversion),
    ("zip", conversion), ("zlib", conversion), ("bz2", conversion), ("quopri", conversion),
    ("quoted_printable", conversion), ("quotedprintable", conversion), ("uu", conversion)]

/-- The encoding that a table gives for a name. -/
def lookUp (table : List (String × Encoding)) (name : Text) : Option Encoding :=
  table.lookup (String.ofList name)

def ofName? (name : Text) : Option Encoding :=
  let plain := plainName name
  if name.any Half.isHalf then none
  else
    lookUp aliases plain <|> lookUp aliases (plain.map fun c => if c = '.' then '_' else c) <|>
      lookUp names plain

/-- Why a name is not that of an encoding. One with a null character or half a pair cannot be looked
up. -/
inductive NameFault where
  | unknown
  | nullCharacter
  | half
deriving DecidableEq

/-- Looks up an encoding by its name. -/
def find (name : Text) : Except NameFault Encoding :=
  if name.any Half.isHalf then .error .half
  else if '\x00' ∈ name then .error .nullCharacter
  else
    match ofName? name with
    | some e => .ok e
    | none => .error .unknown

end Encoding

end Folio
