import Folio.Value.Places
import Folio.Yaml.Merge

/-!
# The content of a document

The nodes of a document have values, unless something in one of them is wrong. A node has one value,
which is seen wherever the node stands. **The value of a list or a mapping is there before its
parts**: it begins as an empty collection and waits, and the collections that wait are filled one
after another, while those found inside them wait for the next round. So a collection can hold
itself, and of several faults in a document the outer one counts.

**A key is valued at once with all its parts.** A list becomes a row of what it holds at that
moment, which is nothing if it waits, and a node inside itself is nothing yet. A set or a mapping is
no key, and a row that holds a collection is useless as one. A mapping without taken entries has
each key once.

* `Making.object` is the value of a node, and `Making.fill` fills a collection.
* `Content.ofInput` is the content of an input.

This is the loader with which the program runs. What is shown about settings does not depend on it,
and holds of any loader that gives contents (`Settings.Library`).
-/

namespace Folio

namespace Yaml

/-- How far the value of a node has come. -/
inductive Progress where
  | untouched
  | begun
  | made (v : Value)

instance : Inhabited Progress := ⟨.untouched⟩

/-- What is known while the values of nodes are made: how far each node has come, the collections,
and the nodes whose collections are not filled yet, the last one first. There are fewer merging keys
than `mergeLimit`. -/
structure Making where
  graph : Graph
  mergeLimit : Nat
  version : Version
  progress : Array Progress
  store : Store
  waiting : List (Nat × Nat)

/-- What makes values. -/
abbrev Maker := StateT Making (Except Error)

namespace Making

/-! ## Parts of the state -/

def node (id : Nat) : Maker Node := return (← get).graph.get id

def collection (id : Nat) : Maker Collection := return (← get).store.get id

def add (c : Collection) : Maker Nat := do
  let m ← get
  let (id, store) := m.store.add c
  set { m with store }
  return id

/-- Keeps a collection in the place of another one. -/
def put (id : Nat) (c : Collection) : Maker Unit :=
  modify fun m => { m with store := m.store.put id c }

/-- Says how far a node has come. -/
def reach (id : Nat) (p : Progress) : Maker Unit :=
  modify fun m => { m with progress := m.progress.setIfInBounds id p }

/-- Lets the collection of a node wait. -/
def defer (id shared : Nat) : Maker Unit :=
  modify fun m => { m with waiting := (id, shared) :: m.waiting }

/-- Makes a mapping take entries from others. -/
def merge (id : Nat) : Maker Unit := do
  let m ← get
  let graph ← m.graph.merge m.mergeLimit id
  set { m with graph }

/-! ## Keys -/

def toKey (v : Value) : Maker Value :=
  match v with
  | .shared id => do
      match ← collection id with
      | .list items => return .row items
      | _ => throw .malformed
  | v => return v

/-- The error for a value without a text. -/
def textError : Store.TextFault → Error
  | .tooLong => .illWritten
  | .tooDeep => .tooDeep

/-- The error for a key that comes twice, with its values. It is reported with their texts, which
they may not have. -/
def clash (store : Store) (k v old : Value) : Error :=
  match [k, v, old].mapM store.toText with
  | .ok _ => .malformed
  | .error f => textError f

/-! ## Filling collections -/

/-- The keys and values of some entries, one after another. The flag tells whether a key may come
once only; `done` holds the entries made. -/
def gather (key child : Nat → Maker Value) (once : Bool) :
    List (Nat × Nat) → List (Value × Value) → Maker (List (Value × Value))
  | [], done => return done
  | (k, v) :: rest, done => do
      let k ← toKey (← key k)
      let v ← child v
      if !k.isFixed then throw .uselessKey
      match if once then Value.find? k done else none with
      | some old => throw (clash (← get).store k v old)
      | none => gather key child once rest (Value.put k v done)

/-- The entries of a mapping: those that it has taken, overridden by all of them, or its own. -/
def entries (key child : Nat → Maker Value) (id : Nat) : Maker (List (Value × Value)) := do
  merge id
  match ← node id with
  | .map _ (some taken) all => do
      let first ← gather key child false taken []
      let second ← gather key child false all []
      return second.foldl (fun done e => Value.put e.1 e.2 done) first
  | .map _ none all => gather key child true all []
  | _ => throw .malformed

/-- The only entry of a mapping with one entry. -/
def singleEntry (id : Nat) : Maker (Nat × Nat) := do
  match ← node id with
  | .map _ _ [e] => return e
  | _ => throw .malformed

/-- Adds the pair of a mapping with one entry to a list. -/
def addPair (child : Nat → Maker Value) (shared id : Nat) : Maker Unit := do
  let e ← singleEntry id
  let k ← child e.1
  let v ← child e.2
  match ← collection shared with
  | .list items => put shared (.list (items ++ [.row [k, v]]))
  | _ => throw .malformed

/-- Adds the entry of a mapping with one entry to a mapping, in which each key comes once. -/
def addEntry (child : Nat → Maker Value) (shared id : Nat) : Maker Unit := do
  let e ← singleEntry id
  let k ← child e.1
  if !k.isFixed then throw .uselessKey
  match ← collection shared with
  | .ordered es => if (Value.find? k es).isSome then throw .repeatedKey
  | _ => throw .malformed
  let v ← child e.2
  match ← collection shared with
  | .ordered es => put shared (.ordered (es ++ [(k, v)]))
  | _ => throw .malformed

/-- The items of a node that is a list. -/
def items (id : Nat) : Maker (List Nat) := do
  match ← node id with
  | .list _ items => return items
  | _ => throw .malformed

/-- Fills the collection of a node; `key` values the keys of mappings, and `child` all other
parts. -/
def fill (key child : Nat → Maker Value) (id shared : Nat) : Maker Unit := do
  match (← node id).kind with
  | .list => put shared (.list (← (← items id).mapM child))
  | .map => put shared (.map (← entries key child id))
  | .set => put shared (.set (Value.arrange ((← entries key child id).map Prod.fst)))
  | .pairs => (← items id).forM (addPair child shared)
  | .ordered => (← items id).forM (addEntry child shared)
  | _ => throw .malformed

/-! ## Values -/

/-- The empty collection of some kind. -/
def emptyOf? : Kind → Option Collection
  | .list | .pairs => some (.list [])
  | .set => some (.set [])
  | .map => some (.map [])
  | .ordered => some (.ordered [])
  | _ => none

/-- The value of a node that is no collection. The first argument bounds the number of mappings on
the way to its text. -/
def atom (n id : Nat) : Maker Value := do
  let m ← get
  match (m.graph.get id).kind, m.graph.get id with
  | .timestamp, .scalar _ text => return .atom (← Kind.timestampOf text)
  | .timestamp, _ | .merge, _ | .whole, _ | .unknown, _ => throw .malformed
  | kind, _ => return .atom (← kind.atom m.version id (← m.graph.textOf n id))

/-- The number of steps that may be inside each other when a key is valued. -/
def stepLimit : Nat := 980

/-- The value of a node; the flag tells whether it is a key or part of one, and so is valued at
once. The first argument bounds the number of steps inside each other, of which a collection inside
another one takes five, or three if it holds pairs. -/
def object (atOnce : Bool) : Nat → Nat → Maker Value
  | 0, _ => throw .tooDeep
  | n + 1, id => do
      match ((← get).progress[id]?).getD default with
      | .made v => return v
      | .begun => return .null
      | .untouched =>
          reach id .begun
          let kind := (← node id).kind
          match emptyOf? kind with
          | none =>
              let v ← atom n id
              reach id (.made v)
              return v
          | some c =>
              let shared ← add c
              if !atOnce then defer id shared
              else if kind == .pairs || kind == .ordered then
                match n with
                | n + 2 => fill (object true n) (object true n) id shared
                | _ => throw .tooDeep
              else
                match n with
                | n + 4 => fill (object true n) (object true n) id shared
                | _ => throw .tooDeep
              reach id (.made (.shared shared))
              return .shared shared

/-- Fills the collections that wait, round by round, until none waits. Each round goes further away
from the root, so there are no more rounds than nodes; the first argument is that bound. -/
def fillWaiting : Nat → Maker Unit
  | 0 => return
  | n + 1 => do
      let m ← get
      if m.waiting.isEmpty then return
      set { m with waiting := [] }
      m.waiting.reverse.forM fun (id, shared) =>
        fill (object true stepLimit) (object false stepLimit) id shared
      fillWaiting n

/-- The value of a node with all its parts. -/
def whole (id : Nat) : Maker Value := do
  let v ← object false stepLimit id
  fillWaiting ((← get).progress.size + 1)
  return v

end Making

/-! ## Contents -/

/-- What a text holds: a value and the collections in it. -/
structure Content where
  root : Value
  store : Store

namespace Content

/-- A text without a document is nothing. -/
def nothing : Content := ⟨.null, .empty⟩

def ofOutline (o : Outline) : Except Error Content :=
  match o.root with
  | none => .ok nothing
  | some root => do
      let start : Making :=
        { graph := o.graph
          mergeLimit := o.graph.entryCount + 1
          version := o.version
          progress := .replicate o.graph.nodes.size .untouched
          store := .empty
          waiting := [] }
      let (v, m) ← (Making.whole root).run start
      return ⟨v, m.store⟩

def ofInput (i : Input) : Except Error Content := do ofOutline (← Outline.ofInput i)

end Content

end Yaml

end Folio
