import Folio.Encoding.Utf8
import Folio.Yaml.Error
import Folio.Yaml.Source

/-!
# What is read of a document

A text comes in portions of 4096 characters, of which the first two are read together, and a portion
is read when somebody gets to its end. **What is wrong with a portion is a fault only for those who
need it**, so a fault of the document in front of it counts first. A portion is wrong if it holds a
character that is not allowed, or if one of the chunks of 8192 bytes that it needs cannot be
decoded.

An `Input` is the text in front of the first portion that is wrong, and what is wrong with it.

* `Input.ofText` is the input of a text, and `Input.ofBytes` that of a file.

Main result: `ofText_of_all`, a text of allowed characters is read to its end.
-/

namespace Folio

namespace Yaml

/-- A text, and what is wrong with what comes after it. -/
structure Input where
  text : Text
  fault : Option Error

namespace Input

/-- The number of characters in a portion. -/
def portion : Nat := 4096

/-- The number of bytes in a chunk. -/
def chunk : Nat := 8192

/-- The number of characters in the portions in front of the one with the character of an index. -/
def sizeBefore (index : Nat) : Nat :=
  if index < 2 * portion then 0 else portion * (index / portion)

/-- The input of a text that is wrong at an index. -/
def cutAt (s : Text) (index : Nat) (e : Error) : Input := ⟨s.take (sizeBefore index), some e⟩

def ofText (s : Text) : Input :=
  match s.findIdx? fun c => !isAllowed c with
  | none => ⟨s, none⟩
  | some index => cutAt s index .malformed

/-- The text of the chunks in front of the one with the first fault. -/
def decoded (bytes : List UInt8) : Text :=
  let chunks := (List.range (bytes.length / chunk + 2)).reverse
  (chunks.findSome? fun n => Utf8.decodeStart (bytes.take (n * chunk))).getD []

/-- The input of the bytes of a file. -/
def ofBytes (bytes : List UInt8) : Input :=
  match Utf8.decode bytes with
  | some s => ofText (Text.unifyLineEnds s)
  | none =>
      let s := Text.unifyLineEnds (decoded bytes)
      let start := ofText (cutAt s s.length .undecodable).text
      { start with fault := start.fault <|> some .undecodable }

theorem ofText_of_all {s : Text} (h : s.all isAllowed = true) : ofText s = ⟨s, none⟩ := by
  have hn : (s.findIdx? fun c => !isAllowed c) = none := by
    rw [List.findIdx?_eq_none_iff]
    intro c hc
    simp [List.all_eq_true.1 h c hc]
  unfold ofText
  rw [hn]

end Input

end Yaml

end Folio
