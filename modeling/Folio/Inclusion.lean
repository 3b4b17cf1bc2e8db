import Folio.Document
import Folio.Event
import Folio.Page

/-!
# Pages of included documents

A document is searched for the lines that include other documents. **An included document becomes a
child page** if it is an existing document that may be a page and the line does not carry the mark
that keeps it in its place. Every such document gets a target: it keeps its offset from the document
that includes it.

The search goes depth first, with a stack of the documents that are open: each has a draft of its
page, and lines that are left to follow. A document gets its target before its own lines are read,
so a document that includes itself, directly or through others, is searched once. A document that
has a target already is a page without children.

**Drafts are kept in the order of their creation** and know their children by number. Only when the
stack is empty are they turned into pages, the last one first, so that a draft finds the pages of
its children made.

* `Search.directives` finds the including lines of a document.
* `Drafts.freeze` makes the pages of drafts.
* `Search.collect` makes the pages below a document and extends the targets.

Main result: `collect_of_mapped`, a document that has a target is not searched.
-/

namespace Folio

/-- Where the copies of source documents go. -/
abbrev Targets := OrderedMap Path Path

/-! ## Including lines -/

/-- A line of a document that includes another one: the path as it is written, without white space
around it, the further text, the path of the included document with the place for its copy, and the
including document with its copy. -/
structure Directive where
  path : Text
  further : Text
  actual : Path
  result : Path
  file : Path
  target : Path
deriving DecidableEq

namespace Directive

/-- The directive in a line, if it is an including one. -/
def ofLine? (base file target : Path) (line : Text) : Option Directive :=
  (Reference.inclusion.grammar.match? line).map fun m =>
    let path := Text.trim m.path
    let actual := Document.refer file path
    ⟨path, m.trailing, actual, Document.targetOf base file target actual, file, target⟩

/-- Whether the included document becomes a page. -/
def promotes? (t : FileTree) (d : Directive) : Except Fault Bool :=
  if Document.isMarked d.further then .ok false else Document.isPage? t d.actual

end Directive

/-- What does not change during a search. -/
structure Search where
  tree : FileTree
  attributes : Attributes
  encoding : Text

namespace Search

/-- The directives of a document, in the order of its lines. -/
def directives (s : Search) (file target : Path) : Except BuildError (List Directive) :=
  (Document.read s.tree file s.encoding).map fun lines =>
    lines.filterMap fun line =>
      Directive.ofLine? s.tree.cwdPath file target (s.attributes.substitute line)

end Search

/-! ## Drafts -/

/-- A page under construction. Its children are drafts too, and are known by their numbers. -/
structure Draft where
  path : Path
  children : List Nat

/-- Drafts in the order of their creation, which numbers them. The first one, number 0, is that of
the document that is searched. -/
structure Drafts where
  root : Draft
  later : List Draft

namespace Draft

/-- The draft with one more child. -/
def addChild (child : Nat) (d : Draft) : Draft := { d with children := d.children ++ [child] }

/-- The page of a draft, from the pages of other drafts with their numbers. -/
def page (made : List (Nat × Page)) (d : Draft) : Page :=
  .node d.path (d.children.filterMap fun child => made.lookup child)

end Draft

namespace Drafts

/-- The draft of a document that is begun with. -/
def start (path : Path) : Drafts := ⟨⟨path, []⟩, []⟩

/-- The number of drafts, which the next one gets. -/
def size (ds : Drafts) : Nat := ds.later.length + 1

/-- Creates a draft as the last child of another one. -/
def create (ds : Drafts) (parent : Nat) (path : Path) : Drafts :=
  match parent with
  | 0 => ⟨ds.root.addChild ds.size, ds.later ++ [⟨path, []⟩]⟩
  | n + 1 => ⟨ds.root, ds.later.modify n (Draft.addChild ds.size) ++ [⟨path, []⟩]⟩

/-- The pages of the drafts from a number on. A draft comes before its children, so the pages are
made from the last one backwards. -/
def pagesFrom (n : Nat) : List Draft → List (Nat × Page)
  | [] => []
  | d :: ds =>
      let made := pagesFrom (n + 1) ds
      (n, d.page made) :: made

/-- The page of the first draft, with all that are below it. -/
def freeze (ds : Drafts) : Page := ds.root.page (pagesFrom 1 ds.later)

end Drafts

/-! ## The search -/

/-- What a search finds: the targets, with those of the documents that were found, the events, and
the page of the document or the error that ended the search. -/
structure Finding where
  targets : Targets
  events : List Event
  result : Except BuildError Page

namespace Finding

/-- The finding with an event in front. -/
def after (e : Event) (f : Finding) : Finding := { f with events := e :: f.events }

end Finding

/-- The open documents, innermost first: the number of the draft of each, and its directives that
are left to follow. -/
abbrev Stack := List (Nat × List Directive)

namespace Search

/-- Follows the directives of the innermost document, whose draft has number `n`. Then the document
is closed and `close` goes on; a document is gone into by `enter`, which is also given the
directives that are left and the number of its draft. -/
def follow (s : Search) (enter : Directive → List Directive → Nat → Drafts → Targets → Finding)
    (close : Drafts → Targets → Finding) (n : Nat) :
    List Directive → Drafts → Targets → Finding
  | [], drafts, m => close drafts m
  | d :: ds, drafts, m =>
      match d.promotes? s.tree with
      | .error f => ⟨m, [], .error (.uncertain f)⟩
      | .ok false =>
          (follow s enter close n ds drafts m).after (.kept d.path d.actual d.file d.target)
      | .ok true =>
          match m.get? d.actual with
          | some there =>
              (follow s enter close n ds (drafts.create n there) m).after
                (.revisited d.path d.actual d.file d.target)
          | none =>
              (enter d ds drafts.size (drafts.create n d.result) m).after
                (.promoted d.path d.actual d.result d.file d.target)

/-- Works off the stack, the innermost document first. When it is empty, the drafts are frozen. -/
def work (s : Search) (enter : Directive → Nat → Stack → Drafts → Targets → Finding) :
    Stack → Drafts → Targets → Finding
  | [], drafts, m => ⟨m, [], .ok drafts.freeze⟩
  | (n, ds) :: stack, drafts, m =>
      s.follow (fun d left child => enter d child ((n, left) :: stack)) (work s enter stack) n ds
        drafts m

/-- Gives a document its target and puts it on the stack, which `next` works off. -/
def scan (s : Search) (next : Stack → Drafts → Targets → Finding) (file target : Path) (n : Nat)
    (stack : Stack) (drafts : Drafts) (m : Targets) : Finding :=
  let m := m.insert file target
  Finding.after (.entered file target) <|
    match s.directives file target with
    | .error e => ⟨m, [], .error e⟩
    | .ok ds => next ((n, ds) :: stack) drafts m

/-- Works off the stack and goes into at most this many documents. -/
def workWithin (s : Search) : Nat → Stack → Drafts → Targets → Finding
  | 0 => s.work fun _ _ _ _ m => ⟨m, [], .error .endless⟩
  | n + 1 => s.work fun d child stack drafts m =>
      s.scan (workWithin s n) d.actual d.result child stack drafts m

/-- A number of documents that no search reaches: every document is found at a different path of
fewer than `pathLimit` bytes, and there are not so many of these. -/
def documentBound : Nat := Nat.pow 256 pathLimit

/-- The page of a document with all that is found below it. -/
def collect (s : Search) (file target : Path) (m : Targets) : Finding :=
  match m.get? file with
  | some there => ⟨m, [], .ok (.leaf there)⟩
  | none => s.scan (s.workWithin documentBound) file target 0 [] (.start target) m

theorem collect_of_mapped {s : Search} {file target there : Path} {m : Targets}
    (h : m.get? file = some there) : s.collect file target m = ⟨m, [], .ok (.leaf there)⟩ := by
  simp [collect, h]

end Search

end Folio
