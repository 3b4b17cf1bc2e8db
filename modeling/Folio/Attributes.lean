import Folio.OrderedMap
import Folio.Atom

/-!
# Attributes

An attribute is a name with a text. In a line, the name between braces is a placeholder for the
text. **Attributes are substituted one after another in their order**, each over the whole line as
the earlier ones left it, so a text may hold placeholders of later attributes. Placeholders without
an attribute stay as they are.
-/

namespace Folio

/-- Names with the texts for which they stand. -/
abbrev Attributes := OrderedMap Text Text

namespace Attributes

/-- The attributes of a list of names with atoms. -/
def ofAtoms (es : List (Text × Atom)) : Attributes :=
  OrderedMap.ofList (es.map fun e => (e.1, e.2.toText))

/-- What stands in a line for an attribute. -/
def placeholder (name : Text) : Text := '{' :: name ++ ['}']

/-- Substitutes some attributes, one after another. -/
def substituteAll : List (Text × Text) → Text → Text
  | [], line => line
  | e :: es, line => substituteAll es (Text.replaceAll (placeholder e.1) e.2 line)

/-- The line with the texts of the attributes in place of their placeholders. -/
def substitute (a : Attributes) (line : Text) : Text := substituteAll a.entries line

end Attributes

end Folio
