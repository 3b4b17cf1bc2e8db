import Folio.Yaml.Node

/-!
# Merging

The key `<<` of a mapping stands for the entries of another mapping, or of several in a list, of
which the first one has precedence. **A mapping takes these entries in front of its own**, which
override them. What it takes from has taken its own entries before; from a mapping that is about to
take, only what it has so far is taken. A mapping takes once at most, unless it has found no
entries.

The key `=` of a mapping stands for the whole mapping where a text is expected; elsewhere it is a
text like any other.

* `Graph.merge` takes the entries of a mapping.
* `Graph.textOf` is the text for which a node stands.
-/

namespace Folio

namespace Yaml

namespace Graph

/-! ## Texts of nodes -/

/-- The text of a scalar, or of the value of the first key of a mapping that stands for the whole;
the first argument bounds the number of mappings on the way. -/
def textOf (g : Graph) : Nat → Nat → Except Error Text
  | 0, _ => .error .tooDeep
  | n + 1, id =>
      match g.get id with
      | .scalar _ text => .ok text
      | .list _ _ => .error .malformed
      | .map _ _ entries =>
          match entries.find? fun e => (g.get e.1).kind == .whole with
          | some e => textOf g n e.2
          | none => .error .malformed

/-! ## Taking entries -/

/-- Some entries without the first one with a merging key, and the value of that entry. -/
def withoutMerge? (g : Graph) : List (Nat × Nat) → Option (List (Nat × Nat) × Nat)
  | [] => none
  | e :: es =>
      if (g.get e.1).kind = .merge then some (es, e.2)
      else (withoutMerge? g es).map fun (rest, v) => (e :: rest, v)

/-- The entries of a node, if it is a mapping. -/
def entriesOf? (g : Graph) (id : Nat) : Option (List (Nat × Nat)) :=
  match g.get id with
  | .map _ _ entries => some entries
  | _ => none

/-- The entries that a node is taken for, after `merge` has made each mapping among them take its
own. Those of the first mapping of a list come last. -/
def takenFrom (merge : Graph → Nat → Except Error Graph) (g : Graph) (id : Nat) :
    Except Error (List (Nat × Nat) × Graph) := do
  match g.get id with
  | .scalar _ _ => .error .malformed
  | .map _ _ _ => do
      let g ← merge g id
      return ((g.entriesOf? id).getD [], g)
  | .list _ items =>
      items.foldlM
        (fun (taken, g) item => do
          if (g.entriesOf? item).isNone then .error .malformed
          let g ← merge g item
          return ((g.entriesOf? item).getD [] ++ taken, g))
        ([], g)

/-- Makes texts of the keys that stand for a whole. -/
def plainKeys (g : Graph) (entries : List (Nat × Nat)) : Graph :=
  entries.foldl
    (fun g e =>
      let key := g.get e.1
      if key.kind = .whole then g.put e.1 (key.withKind .text) else g)
    g

/-- Makes a mapping that has found some entries take them and all others for which its merging keys
stand. The first argument bounds the number of merging keys that are met, each of which goes when it
is met. -/
def mergeFrom : Nat → List (Nat × Nat) → Graph → Nat → Except Error Graph
  | 0, _, _, _ => .error .tooDeep
  | n + 1, taken, g, id =>
      match g.get id with
      | .map kind before entries =>
          match g.withoutMerge? entries with
          | some (rest, v) => do
              if !taken.isEmpty then .error .malformed
              let (taken, g) ← takenFrom (mergeFrom n []) (g.put id (.map kind before rest)) v
              mergeFrom n taken g id
          | none =>
              let g :=
                if taken.isEmpty then g else g.put id (.map kind (some taken) (taken ++ entries))
              .ok (g.plainKeys entries)
      | _ => .ok g

/-- The number of entries of all mappings, which bounds the number of merging keys. -/
def entryCount (g : Graph) : Nat :=
  g.nodes.foldl
    (fun n node =>
      match node with
      | .map _ _ entries => n + entries.length
      | _ => n)
    0

/-- Makes a mapping take the entries for which its merging keys stand, of which there are fewer than
`n` in the whole graph. -/
def merge (n : Nat) (g : Graph) (id : Nat) : Except Error Graph := mergeFrom n [] g id

end Graph

end Yaml

end Folio
