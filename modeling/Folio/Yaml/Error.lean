/-!
# Errors of documents

A text may fail to have a value in nine ways. Most faults make the text malformed as a whole; two
others are about its end, five about a single scalar or key, and one about lists and mappings inside
each other.

* `Error` has a constructor for each way.
* `wellFormed` turns what a reader could not read into a fault of the text.
-/

namespace Folio

namespace Yaml

/-- Why a text has no value. It may be no document, end inside a scalar, or have bytes that are not
those of a text. A scalar is `illWritten` if it is not written as its kind demands, and `unlisted`
if it is none of the words of its kind. A moment after the last day of the calendar, or a code of
more than 31 bits, is `outOfRange`. -/
inductive Error where
  | malformed
  | unfinished
  | undecodable
  | illWritten
  | unlisted
  | outOfRange
  | uselessKey
  | repeatedKey
  | tooDeep
deriving DecidableEq

/-- What a reader has read; if it could not read anything, the text is malformed. -/
def wellFormed {α : Type} : Option α → Except Error α
  | some a => .ok a
  | none => .error .malformed

end Yaml

end Folio
