import Folio.Yaml.Layout
import Folio.Yaml.Meaning

/-!
# Nodes

The tokens of a document make a graph of nodes: scalars, lists and mappings, each of some kind.
Nodes have numbers, and a list or a mapping holds the numbers of its parts. **A node that has been
given a name may stand in other places once more**, also inside itself; it is the same node there. A
name may be given again. A key or a value may be left out, and is an empty scalar then.

Tokens are looked at one after another, so that a fault behind a token counts only if nothing was
wrong with the tokens in front of it.

* `Node.read` reads one node from the tokens.
* `Outline.ofInput` reads the nodes of an input, which must hold one document at most.

Main result: `get_add`, a new node is found under its number.
-/

namespace Folio

namespace Yaml

/-! ## The graph -/

/-- A node of a document; its parts are given by their numbers. A mapping has the entries that it
has taken from other mappings, if it has, and all its entries. -/
inductive Node where
  | scalar (kind : Kind) (text : Text)
  | list (kind : Kind) (items : List Nat)
  | map (kind : Kind) (taken : Option (List (Nat × Nat))) (entries : List (Nat × Nat))

namespace Node

instance : Inhabited Node := ⟨scalar .null []⟩

def kind : Node → Kind
  | scalar k _ | list k _ | map k _ _ => k

def withKind (k : Kind) : Node → Node
  | scalar _ text => scalar k text
  | list _ items => list k items
  | map _ taken entries => map k taken entries

end Node

/-- The nodes of a document in the order of their numbers. -/
structure Graph where
  nodes : Array Node

namespace Graph

def empty : Graph := ⟨#[]⟩

def get (g : Graph) (id : Nat) : Node := (g.nodes[id]?).getD default

/-- Adds a node; it has the next number. -/
def add (g : Graph) (n : Node) : Nat × Graph := (g.nodes.size, ⟨g.nodes.push n⟩)

/-- Puts a node in the place of another one. -/
def put (g : Graph) (id : Nat) (n : Node) : Graph := ⟨g.nodes.setIfInBounds id n⟩

theorem get_add (g : Graph) (n : Node) : (g.add n).2.get (g.add n).1 = n := by
  simp [add, get]

end Graph

/-! ## Reading tokens -/

/-- What is known when tokens are read: the tokens to come, the nodes, the named ones, the last one
first, and how many lists and mappings are around this place. -/
structure Reading where
  rest : List Lexeme
  ending : Ending
  graph : Graph
  named : List (Text × Nat)
  depth : Nat

/-- A reader of tokens. -/
abbrev Reader := StateT Reading (Except Error)

namespace Reader

/-- The next token, if there is one. -/
def look : Reader (Option Token) := do
  let r ← get
  match r.rest, r.ending with
  | l :: _, _ => return some l.token
  | [], .finished _ => return none
  | [], .fault e => throw e

/-- The version that is known at the next token. -/
def version : Reader Version := do
  let r ← get
  match r.rest, r.ending with
  | l :: _, _ => return l.version
  | [], .finished v => return v
  | [], .fault e => throw e

/-- Goes on behind the next token. -/
def skip : Reader Unit := modify fun r => { r with rest := r.rest.drop 1 }

/-- What a reader does when the document is malformed. -/
def refuse {α : Type} : Reader α := throw .malformed

def add (n : Node) : Reader Nat := do
  let r ← get
  let (id, graph) := r.graph.add n
  set { r with graph }
  return id

/-- Puts a node in the place of another one. -/
def put (id : Nat) (n : Node) : Reader Unit := modify fun r => { r with graph := r.graph.put id n }

def name (id : Nat) : Option Text → Reader Unit
  | none => return
  | some name => modify fun r => { r with named := (name, id) :: r.named }

def lookUp (name : Text) : Reader Nat := do
  match (← get).named.lookup name with
  | some id => return id
  | none => refuse

/-- How many lists and mappings may be inside each other. -/
def depthLimit : Nat := 490

/-- Reads inside a list or a mapping. -/
def inside {α : Type} (r : Reader α) : Reader α := do
  if (← get).depth < depthLimit then
    modify fun r => { r with depth := r.depth + 1 }
    let a ← r
    modify fun r => { r with depth := r.depth - 1 }
    return a
  else throw .tooDeep

end Reader

/-! ## Tags -/

/-- What handles of tags stand for. -/
abbrev Handles := List (Text × Text)

/-- What the handles stand for in every document that does not say otherwise. -/
def standardHandles : Handles :=
  [(Tag.single, Tag.single), (Tag.double, "tag:yaml.org,2002:".toList)]

def Tag.meaning? (handles : Handles) (t : Tag) : Option Text :=
  if t.handle = [] then some t.rest else (handles.lookup t.handle).map (· ++ t.rest)

/-- The name and the tag in front of a node. -/
structure Properties where
  name : Option Text
  tag : Option Text

namespace Properties

/-- Nothing stands in front of a node. -/
def none : Properties := ⟨.none, .none⟩

def isEmpty (p : Properties) : Bool := p.name.isNone && p.tag.isNone

/-- Reads the name of a node, if it has one. -/
def readName : Reader (Option Text) := do
  match ← Reader.look with
  | some (.anchor name) => do
      Reader.skip
      return some name
  | _ => return .none

/-- Reads the tag of a node, if it has one. -/
def readTag : Reader (Option Tag) := do
  match ← Reader.look with
  | some (.tag t) => do
      Reader.skip
      return some t
  | _ => return .none

/-- Reads what stands in front of a node: its name and its tag, in any order. -/
def read (handles : Handles) : Reader Properties := do
  let inFront ← readTag
  let name ← readName
  let tag ← if inFront.isNone && name.isSome then readTag else pure inFront
  match tag with
  | .none => return ⟨name, .none⟩
  | some t => return ⟨name, some (← wellFormed (t.meaning? handles))⟩

/-- Whether the tag, if there is one, says nothing about the kind of a node. -/
def isOpen (p : Properties) : Bool :=
  match p.tag with
  | .none => true
  | some t => t == Tag.single

/-- The kind of a node with these properties; `default` is its kind if nothing is said about it. -/
def kind (default : Kind) (p : Properties) : Kind :=
  match p.tag with
  | .none => default
  | some t => if t = Tag.single then default else .ofTag t

/-- A scalar with these properties. One that is not plain is a text, unless its tag is a mark
alone. -/
def scalar (v : Version) (isPlain : Bool) (text : Text) (p : Properties) : Except Error Node :=
  if p.isOpen && (isPlain || p.tag.isSome) then
    match Kind.ofPlain? v text with
    | some k => .ok (.scalar k text)
    | .none => .error .unlisted
  else .ok (.scalar (p.kind .text) text)

end Properties

namespace Node

/-! ## Signs -/

/-- Whether a key or a value outside brackets has been left out in front of this token. -/
def endsEntry : Option Token → Bool
  | some .key | some .value | some .blockEnd => true
  | _ => false

/-- Whether an item outside brackets has been left out in front of this token. -/
def endsItem : Option Token → Bool
  | some .item | some .blockEnd => true
  | _ => false

/-- Whether an item in brackets has been left out in front of this token. -/
def endsListPart : Option Token → Bool
  | some .comma | some .closeList => true
  | _ => false

/-- Whether a value in brackets has been left out in front of this token. -/
def endsMapPart : Option Token → Bool
  | some .comma | some .closeMap => true
  | _ => false

/-- Whether a token stands in front of the value of a key. -/
def isValue : Option Token → Bool
  | some .value => true
  | _ => false

/-- Reads the comma that stands between the items or entries in brackets. -/
def readComma (first : Bool) : Reader Unit := do
  if first then return
  else
    match ← Reader.look with
    | some .comma => Reader.skip
    | _ => Reader.refuse

/-- Reads the sign in front of an entry, if there is one, and tells then whether the key of the
entry has been left out. A key can be left out with its sign after the first version only. -/
def readSign (ends : Option Token → Bool) : Reader (Option Bool) := do
  match ← Reader.look with
  | some .key => do
      Reader.skip
      let t ← Reader.look
      return some (ends t || isValue t)
  | some .value => do return if (← Reader.version).isLater then some true else none
  | _ => return none

/-! ## Reading nodes -/

/-- How a node is read: whether it may be a list or a mapping that is marked by indentation, and
whether it may be a list that begins at the column of the mapping around it. -/
structure Setting where
  indented : Bool
  flush : Bool

def Setting.inBrackets : Setting := ⟨false, false⟩

/-- A document, or an item of a list outside brackets. -/
def Setting.ofItem : Setting := ⟨true, false⟩

/-- A key or a value outside brackets. -/
def Setting.ofEntry : Setting := ⟨true, true⟩

/-- Reads a scalar that has been left out. -/
def readNothing (p : Properties) : Reader Nat := do
  let id ← Reader.add (← p.scalar (← Reader.version) true [])
  Reader.name id p.name
  return id

/-- Reads a list, whose name may stand inside it. -/
def readList (p : Properties) (items : Reader (List Nat)) : Reader Nat := do
  let kind := p.kind .list
  let id ← Reader.add (.list kind [])
  Reader.name id p.name
  Reader.put id (.list kind (← Reader.inside items))
  return id

/-- Reads a mapping, whose name may stand inside it. -/
def readMap (p : Properties) (entries : Reader (List (Nat × Nat))) : Reader Nat := do
  let kind := p.kind .map
  let id ← Reader.add (.map kind none [])
  Reader.name id p.name
  Reader.put id (.map kind none (← Reader.inside entries))
  return id

mutual

/-- Reads a node: one that has been named, or what stands in front of a node and the node itself. -/
def read (handles : Handles) : Nat → Setting → Reader Nat
  | 0, _ => Reader.refuse
  | n + 1, how => do
      match ← Reader.look with
      | some (.alias name) => do
          Reader.skip
          Reader.lookUp name
      | _ => do readBare handles n how (← Properties.read handles)

/-- Reads a node without what stands in front of it. -/
def readBare (handles : Handles) : Nat → Setting → Properties → Reader Nat
  | 0, _, _ => Reader.refuse
  | n + 1, how, p => do
      match ← Reader.look, how with
      | some .item, ⟨_, true⟩ => readList p (flushItems handles n)
      | some (.scalar isPlain text), _ => do
          let v ← Reader.version
          Reader.skip
          let id ← Reader.add (← p.scalar v isPlain text)
          Reader.name id p.name
          return id
      | some .openList, _ => do
          Reader.skip
          readList p (listItems handles n true)
      | some .openMap, _ => do
          Reader.skip
          readMap p (mapEntries handles n true)
      | some .listStart, ⟨true, _⟩ => do
          Reader.skip
          readList p (indentedItems handles n)
      | some .mapStart, ⟨true, _⟩ => do
          Reader.skip
          readMap p (indentedEntries handles n)
      | _, _ => if p.isEmpty then Reader.refuse else readNothing p

/-- Reads a node, unless it has been left out. -/
def readUnless (handles : Handles) : Nat → Bool → Setting → Reader Nat
  | 0, _, _ => Reader.refuse
  | n + 1, leftOut, how => if leftOut then readNothing .none else read handles n how

/-- Reads the value of an entry. It has been left out if there is no sign in front of it, or if
`ends` holds of the token after the sign. -/
def readValue (handles : Handles) : Nat → (Option Token → Bool) → Setting → Reader Nat
  | 0, _, _ => Reader.refuse
  | n + 1, ends, how => do
      match ← Reader.look with
      | some .value => do
          Reader.skip
          readUnless handles n (ends (← Reader.look)) how
      | _ => readUnless handles n true how

/-- Reads the items of a list that begins at the column of the mapping around it. -/
def flushItems (handles : Handles) : Nat → Reader (List Nat)
  | 0 => Reader.refuse
  | n + 1 => do
      match ← Reader.look with
      | some .item => do
          Reader.skip
          let next ← Reader.look
          let item ← readUnless handles n (endsItem next || endsEntry next) .ofItem
          return item :: (← flushItems handles n)
      | _ => return []

/-- Reads the items of a list that is marked by indentation. -/
def indentedItems (handles : Handles) : Nat → Reader (List Nat)
  | 0 => Reader.refuse
  | n + 1 => do
      match ← Reader.look with
      | some .item => do
          Reader.skip
          let item ← readUnless handles n (endsItem (← Reader.look)) .ofItem
          return item :: (← indentedItems handles n)
      | some .blockEnd => do
          Reader.skip
          return []
      | _ => Reader.refuse

/-- Reads the entries of a mapping that is marked by indentation. -/
def indentedEntries (handles : Handles) : Nat → Reader (List (Nat × Nat))
  | 0 => Reader.refuse
  | n + 1 => do
      match ← readSign endsEntry with
      | some leftOut => do
          let k ← readUnless handles n leftOut .ofEntry
          let v ← readValue handles n endsEntry .ofEntry
          return (k, v) :: (← indentedEntries handles n)
      | none => do
          match ← Reader.look with
          | some .blockEnd => do
              Reader.skip
              return []
          | _ => Reader.refuse

/-- Reads the items of a list in brackets. An item with a key is a mapping of one entry. -/
def listItems (handles : Handles) : Nat → Bool → Reader (List Nat)
  | 0, _ => Reader.refuse
  | n + 1, first => do
      match ← Reader.look with
      | some .closeList => do
          Reader.skip
          return []
      | _ => do
          readComma first
          match ← Reader.look with
          | some .closeList => do
              Reader.skip
              return []
          | some .key => do
              Reader.skip
              let item ← readMap .none (listEntry handles n)
              return item :: (← listItems handles n false)
          | _ => do
              let item ← read handles n .inBrackets
              return item :: (← listItems handles n false)

/-- Reads the only entry of a mapping that is an item of a list in brackets. -/
def listEntry (handles : Handles) : Nat → Reader (List (Nat × Nat))
  | 0 => Reader.refuse
  | n + 1 => do
      let next ← Reader.look
      let k ← readUnless handles n (endsListPart next || isValue next) .inBrackets
      let v ← readValue handles n endsListPart .inBrackets
      return [(k, v)]

/-- Reads the entries of a mapping in brackets. An entry without a sign has a key only. -/
def mapEntries (handles : Handles) : Nat → Bool → Reader (List (Nat × Nat))
  | 0, _ => Reader.refuse
  | n + 1, first => do
      match ← Reader.look with
      | some .closeMap => do
          Reader.skip
          return []
      | _ => do
          readComma first
          match ← readSign endsMapPart with
          | some leftOut => do
              let k ← readUnless handles n leftOut .inBrackets
              let v ← readValue handles n endsMapPart .inBrackets
              return (k, v) :: (← mapEntries handles n false)
          | none => do
              match ← Reader.look with
              | some .closeMap => do
                  Reader.skip
                  return []
              | _ => do
                  let k ← read handles n .inBrackets
                  let v ← readUnless handles n true .inBrackets
                  return (k, v) :: (← mapEntries handles n false)

end

end Node

/-! ## Documents -/

/-- What a text holds: the nodes of a document, the number of its root, unless there is none, and
the version that is known at the end. -/
structure Outline where
  graph : Graph
  root : Option Nat
  version : Version

namespace Outline

/-- Reads the directives and the sign in front of a document. There is one version at most, with
the major number 1, and each handle is given once. -/
def prologue : Nat → Bool → Handles → Reader Handles
  | 0, _, _ => Reader.refuse
  | n + 1, hasVersion, handles => do
      let next ← Reader.look
      Reader.skip
      match next with
      | some (.version v) =>
          if hasVersion || v.major != 1 then Reader.refuse else prologue n true handles
      | some (.handle name meaning) =>
          if (handles.lookup name).isSome then Reader.refuse
          else prologue n hasVersion (handles ++ [(name, meaning)])
      | some .remark => prologue n hasVersion handles
      | some .documentStart => return handles ++ standardHandles
      | _ => Reader.refuse

/-- Whether a token is one of the directives or the sign in front of a document. -/
def beginsPrologue (t : Token) : Bool := t.isDirective || t matches .documentStart

/-- Whether a document that begins with a sign is empty in front of this token. -/
def endsDocument : Option Token → Bool
  | none | some .documentEnd => true
  | some t => beginsPrologue t

/-- A bound on the readings inside each other that these tokens need: of five of them, one takes a
token. -/
def bound (tokens : List Lexeme) : Nat := 5 * tokens.length + 5

/-- Reads the root of the first document, if there is one. -/
def readRoot : Reader (Option Nat) := do
  let n := bound (← get).rest
  match ← Reader.look with
  | none => return none
  | some t =>
      if beginsPrologue t then
        let handles ← prologue n false []
        Node.readUnless handles n (endsDocument (← Reader.look)) .ofItem
      else Node.read standardHandles n .ofItem

/-- Checks that nothing but signs after a document is left. -/
def checkSigns (ending : Ending) : List Lexeme → Except Error Unit
  | [] =>
      match ending with
      | .finished _ => .ok ()
      | .fault e => .error e
  | l :: rest => if l.token matches .documentEnd then checkSigns ending rest else .error .malformed

/-- Checks that the document is the only one. The sign after a document may stand several times in
the first version only. -/
def checkEnd : Reader Unit := do
  let next ← Reader.look
  let v ← Reader.version
  match next with
  | none => return
  | some .documentEnd => do
      Reader.skip
      if v.isFirst then
        let r ← get
        checkSigns r.ending r.rest
      else if (← Reader.look).isSome then Reader.refuse
  | some _ => Reader.refuse

def read : Reader Outline := do
  let root ← readRoot
  checkEnd
  return ⟨(← get).graph, root, ← Reader.version⟩

def ofInput (i : Input) : Except Error Outline :=
  let tokens := Layout.ofInput i
  (read.run ⟨tokens.lexemes, tokens.ending, .empty, [], 0⟩).map Prod.fst

end Outline

end Yaml

end Folio
