import Folio.Inclusion

/-!
# Copies with references that lead to the same files

The copy of a document stands elsewhere, so the references in it are made to lead from there to the
files that they denoted. A reference to no file stays as it is. **A reference to a document that has
a target is taken out**, since that document is a page of its own. Everything else leads to the file
in the source, by a path from the directory of the copy.

* `Relink.line` does this for one line, kind of reference after kind of reference.
* `Relink.copyAll` makes the copies of all documents with a target.
-/

namespace Folio

/-- A document and its copy, among the targets of all documents. -/
structure Copy where
  tree : FileTree
  targets : Targets
  file : Path
  target : Path

namespace Relink

/-! ## One reference -/

/-- What becomes of a match in a line, with the decision about it. -/
def match? (c : Copy) (kind : Reference) (m : Match) : Except Fault (Event × Text) :=
  let path := Text.trim m.path
  let actual := Document.refer c.file path
  match c.tree.exists? actual with
  | .error f => .error f
  | .ok false => .ok (.missing path actual c.file c.target kind, kind.grammar.textOf m)
  | .ok true =>
      let there := c.targets.get? actual
      let result := Path.relativeTo c.tree.cwdPath c.target.parent (there.getD actual)
      .ok (.repointed path actual result c.file c.target kind,
        if there.isSome then [] else kind.grammar.render result.toText m.trailing)

/-! ## One line -/

/-- What becomes of some pieces of a line, with the decisions about the matches among them. -/
def pieces (c : Copy) (kind : Reference) : List Grammar.Piece → List Event × Except Fault Text
  | [] => ([], .ok [])
  | .plain x :: ps =>
      let r := pieces c kind ps
      (r.1, r.2.map (x :: ·))
  | .hit m :: ps =>
      match match? c kind m with
      | .error f => ([], .error f)
      | .ok (e, text) =>
          let r := pieces c kind ps
          (e :: r.1, r.2.map (text ++ ·))

/-- What becomes of a line when the references of these kinds are looked for, one kind after
another. -/
def line (c : Copy) : List Reference → Text → List Event × Except Fault Text
  | [], s => ([], .ok s)
  | kind :: kinds, s =>
      match pieces c kind (kind.grammar.pieces s) with
      | (es, .error f) => (es, .error f)
      | (es, .ok s) =>
          let r := line c kinds s
          (es ++ r.1, r.2)

/-- What becomes of some lines, in which the attributes are substituted first. -/
def lines (c : Copy) (kinds : List Reference) (attributes : Attributes) :
    List Text → List Event × Except Fault (List Text)
  | [] => ([], .ok [])
  | l :: ls =>
      match line c kinds (attributes.substitute l) with
      | (es, .error f) => (es, .error f)
      | (es, .ok l) =>
          let r := lines c kinds attributes ls
          (es ++ r.1, r.2.map (l :: ·))

end Relink

/-! ## Copies -/

/-- What a step of a build leaves: the file tree, the events, and a result or an error. -/
structure Outcome (α : Type) where
  tree : FileTree
  events : List Event
  result : Except BuildError α

/-- How copies are made: with which attributes, in which encoding, and with which kinds of
references looked for, in this order. -/
structure Copying where
  attributes : Attributes
  encoding : Text
  kinds : List Reference

namespace Relink

/-- Makes the copy of one document. -/
def copy (how : Copying) (targets : Targets) (file target : Path) (t : FileTree) : Outcome Unit :=
  match Document.read t file how.encoding with
  | .error e => ⟨t, [.copied file target], .error e⟩
  | .ok ls =>
      match lines ⟨t, targets, file, target⟩ how.kinds how.attributes ls with
      | (es, .error f) => ⟨t, .copied file target :: es, .error (.uncertain f)⟩
      | (es, .ok ls) =>
          let r := Document.write t target how.encoding ls
          ⟨r.1, .copied file target :: es, r.2⟩

/-- Makes the copies of some documents, in order, but not those at the targets to be skipped; gives
the targets of the copies. -/
def copyEach (how : Copying) (targets : Targets) (skip : List Path) :
    List (Path × Path) → FileTree → Outcome (List Path)
  | [], t => ⟨t, [], .ok []⟩
  | (file, target) :: rest, t =>
      if target ∈ skip then copyEach how targets skip rest t
      else
        match copy how targets file target t with
        | ⟨t, es, .error e⟩ => ⟨t, es, .error e⟩
        | ⟨t, es, .ok ()⟩ =>
            let o := copyEach how targets skip rest t
            ⟨o.tree, es ++ o.events, o.result.map (target :: ·)⟩

/-- Makes the copies of all documents with a target, but not those at the targets to be skipped. -/
def copyAll (how : Copying) (targets : Targets) (skip : List Path) (t : FileTree) :
    Outcome (List Path) :=
  copyEach how targets skip targets.entries t

end Relink

end Folio
