import Folio.Attributes
import Folio.Text.Blank

/-!
# Assignments of attributes

On the command line an attribute is given as `NAME=VALUE`. The first sign of equality ends the name,
around which white space does not count; without a sign the value is empty. **A name may not be
empty**, and a later assignment of a name replaces an earlier one.

Main result: `read?_eq_none_iff`, an assignment is refused just if there is only white space in
front of its sign.
-/

namespace Folio

namespace Assignment

/-- The name that a text assigns a value to. -/
def name (s : Text) : Text := Text.trim (s.takeWhile (· != '='))

/-- The value that a text assigns. -/
def value (s : Text) : Text := (s.dropWhile (· != '=')).drop 1

def read? (s : Text) : Option (Text × Text) :=
  if name s = [] then none else some (name s, value s)

theorem read?_eq_none_iff {s : Text} :
    read? s = none ↔ ∀ c ∈ s.takeWhile (· != '='), isBlank c = true := by
  simp [read?, name, Text.trim_eq_nil_iff]

/-- Reads assignments, one after another; the error is the first one that is refused. -/
def readAll : List Text → Except Text (List (Text × Text))
  | [] => .ok []
  | s :: rest =>
      match read? s with
      | some e => (readAll rest).map (e :: ·)
      | none => .error s

end Assignment

/-- The attributes with those of some assignments added. -/
def Attributes.assign (a : Attributes) (items : List Text) : Except Text Attributes :=
  (Assignment.readAll items).map a.insertAll

end Folio
