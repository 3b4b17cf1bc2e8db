/-!
# Versions of the language

The rules for documents have changed between two versions of the language, and a document may say
which of them it follows. **Without a version it follows the second one.** The versions differ in
what a colon means in brackets, in whether a key may be left out in front of its colon, in the signs
of a tag, and in the words and numbers among the plain scalars. For other versions of the language
no plain scalar has a meaning.
-/

namespace Folio

namespace Yaml

/-- A version of the language. -/
structure Version where
  major : Nat
  minor : Nat
deriving DecidableEq

namespace Version

def first : Version := ⟨1, 1⟩

def second : Version := ⟨1, 2⟩

/-- Whether a version is the first one. -/
def isFirst (v : Version) : Bool := v == first

/-- Whether a version comes after the first one. -/
def isLater (v : Version) : Bool := decide (1 < v.major) || (v.major == 1 && decide (1 < v.minor))

/-- Whether plain scalars have a meaning in a version. -/
def isKnown (v : Version) : Bool := v == first || v == second

end Version

end Yaml

end Folio
