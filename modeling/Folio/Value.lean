import Folio.Atom

/-!
# Values

Settings hold values: atoms, and lists, sets and mappings of values. **A collection may stand in
several places, and even in itself.** So collections are kept in a store, where each has a number,
and a value refers to them by that number. What stands in one place of the store is seen from all
places that refer to it.

* `Store.add` and `Store.put` keep a collection; `Store.get` looks one up.
* `Store.toText` is what is put into a document for a value, and `Store.shown` how a value appears
  inside a collection. A collection inside itself is shown as dots.
* `Value.same` is the equality under which the keys of a mapping are different.

Main results: `get_add`, a new collection is found under its number; `get_put_of_ne`, putting one
leaves the others alone.
-/

namespace Folio

/-! ## Values and collections -/

/-- A value of a setting: an atom, a row of values that does not change, as a list that is a key of
a mapping is, or the collection with a number. -/
inductive Value where
  | atom (a : Atom)
  | row (items : List Value)
  | shared (id : Nat)

namespace Value

instance : Inhabited Value := ⟨.atom .null⟩

def null : Value := atom .null

end Value

/-- A list, a set or a mapping. A mapping may have been written as a list of its entries. -/
inductive Collection where
  | list (items : List Value)
  | set (items : List Value)
  | map (entries : List (Value × Value))
  | ordered (entries : List (Value × Value))

namespace Collection

/-- Whether nothing is in a collection. -/
def isEmpty : Collection → Bool
  | list items | set items => items.isEmpty
  | map entries | ordered entries => entries.isEmpty

def entries? : Collection → Option (List (Value × Value))
  | map entries | ordered entries => some entries
  | list _ | set _ => none

end Collection

/-! ## The store -/

/-- Collections in the order of their numbers. -/
structure Store where
  collections : Array Collection

namespace Store

def empty : Store := ⟨#[]⟩

def get (s : Store) (id : Nat) : Collection := (s.collections[id]?).getD (.list [])

/-- Keeps a new collection; it has the next number. -/
def add (s : Store) (c : Collection) : Nat × Store := (s.collections.size, ⟨s.collections.push c⟩)

/-- Keeps a collection in the place of another one. -/
def put (s : Store) (id : Nat) (c : Collection) : Store := ⟨s.collections.setIfInBounds id c⟩

theorem get_add (s : Store) (c : Collection) : (s.add c).2.get (s.add c).1 = c := by
  simp [add, get]

theorem get_put_self {s : Store} {id : Nat} (h : id < s.collections.size) (c : Collection) :
    (s.put id c).get id = c := by
  simp [put, get, h]

theorem get_put_of_ne {s : Store} {id other : Nat} (h : id ≠ other) (c : Collection) :
    (s.put id c).get other = s.get other := by
  simp [put, get, h]

/-! ## Texts of values -/

/-- Why a value has no text: an integer is too long, or too many collections are inside each other.
-/
inductive TextFault where
  | tooLong
  | tooDeep
deriving DecidableEq

/-- Items between parentheses; a single item has a comma after it. -/
def inParentheses : List Text → Text
  | [item] => '(' :: item ++ [',', ')']
  | items => '(' :: Text.join Atom.comma items ++ [')']

/-- The text of a collection whose items and entries have these texts. -/
def layOut (c : Collection) (items : List Text) (entries : List (Text × Text)) : Text :=
  match c with
  | .list _ => '[' :: Text.join Atom.comma items ++ [']']
  | .set [] => Atom.call "set" []
  | .set _ => '{' :: Text.join Atom.comma items ++ ['}']
  | .map _ =>
      '{' :: Text.join Atom.comma (entries.map fun e => e.1 ++ ':' :: ' ' :: e.2) ++ ['}']
  | .ordered [] => Atom.call "ordereddict" []
  | .ordered _ =>
      Atom.call "ordereddict"
        ['[' :: Text.join Atom.comma (entries.map fun e => inParentheses [e.1, e.2]) ++ [']']]

/-- What stands for a collection inside itself. -/
def dots : Collection → Text
  | .map _ => "\x7b...\x7d".toList
  | .ordered _ => "...".toList
  | _ => "[...]".toList

/-- How an atom appears, if it has a text. -/
def shownAtom (a : Atom) : Except TextFault Text :=
  if a.hasText then .ok a.shown else .error .tooLong

/-- How many levels of collections can be shown. -/
def levelLimit : Nat := 985

/-- How a value appears inside the collections with some numbers, of which each level may hold
another one. -/
def shownIn (s : Store) : Nat → List Nat → Value → Except TextFault Text
  | 0, _, _ => .error .tooDeep
  | levels + 1, around, v =>
      match v with
      | .atom a => shownAtom a
      | .row items => (items.mapM (shownIn s levels around)).map inParentheses
      | .shared id =>
          let c := s.get id
          let shown := shownIn s levels (id :: around)
          if id ∈ around then .ok (dots c)
          else
            match c with
            | .list items | .set items => do return layOut c (← items.mapM shown) []
            | .map entries | .ordered entries => do
                let entries ← entries.mapM fun e => do return (← shown e.1, ← shown e.2)
                return layOut c [] entries

/-- How a value appears inside a collection. -/
def shown (s : Store) (v : Value) : Except TextFault Text := s.shownIn levelLimit [] v

/-- What is put into a document for a value. -/
def toText (s : Store) : Value → Except TextFault Text
  | .atom a => if a.hasText then .ok a.toText else .error .tooLong
  | v => s.shown v

/-! ## Emptiness and keys -/

/-- Whether a value counts as nothing. -/
def isEmpty (s : Store) : Value → Bool
  | .atom a => a.isEmpty
  | .row items => items.isEmpty
  | .shared id => (s.get id).isEmpty

/-- The entries of a value that is a mapping. -/
def entries? (s : Store) : Value → Option (List (Value × Value))
  | .shared id => (s.get id).entries?
  | _ => none

end Store

namespace Value

mutual

/-- Whether nothing in a value can change, so that it may be a key. -/
def isFixed : Value → Bool
  | atom _ => true
  | row items => allFixed items
  | shared _ => false

/-- Whether nothing in some values can change. -/
def allFixed : List Value → Bool
  | [] => true
  | v :: vs => isFixed v && allFixed vs

end

mutual

/-- Whether two values are the same key. -/
def same : Value → Value → Bool
  | atom a, atom b => a.same b
  | row vs, row ws => sameAll vs ws
  | shared id, shared other => id == other
  | _, _ => false

/-- Whether two rows hold the same keys at each place. -/
def sameAll : List Value → List Value → Bool
  | [], [] => true
  | v :: vs, w :: ws => same v w && sameAll vs ws
  | _, _ => false

end

/-- The value at a key among some entries. -/
def find? (k : Value) (entries : List (Value × Value)) : Option Value :=
  (entries.find? fun e => e.1.same k).map Prod.snd

/-- Gives a key its value: in its old place or, if it is new, at the end. -/
def put (k v : Value) : List (Value × Value) → List (Value × Value)
  | [] => [(k, v)]
  | e :: es => if e.1.same k then (e.1, v) :: es else e :: put k v es

end Value

end Folio
