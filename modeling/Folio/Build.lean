import Folio.Relink

/-!
# Builds

A build turns the documents at a source into pages below a working directory. The source is one
document, or a directory of which every document that may be a page is taken, in alphabetical order.
Each of these is worked on in two steps: the pages below it are collected, then the copies of all
documents found are made. **A copy that an earlier document has led to is not made again.**

* `Build.open?` checks the places of a build.
* `Build.topLevel` finds the documents at the source.
* `Build.run` makes the pages once; a second run gives them again.

Main result: `run_of_pages`, a build that has its pages does nothing.
-/

namespace Folio

/-- A build, with what it has done so far: the copies made, in order, and the pages once they are
made. The source and the working directory are normalized absolute paths. -/
structure Build where
  source : Path
  workingDir : Path
  attributes : Attributes
  encoding : Text
  written : List Path
  pages : Option (List Page)

namespace Build

/-! ## Opening -/

/-- A question about the tree, whose failure is an error of the build. -/
def ask {α : Type} (r : Except Fault α) : Except BuildError α :=
  match r with
  | .ok a => .ok a
  | .error f => .error (.uncertain f)

/-- Checks the source of a build. -/
def checkSource (t : FileTree) (source : Path) : Except BuildError Unit := do
  if !(← ask (t.exists? source)) then .error (.sourceMissing source)
  else if ← ask (t.isDirectory? source) then .ok ()
  else if Document.isPageName source then .ok ()
  else .error (.sourceUnsupported source)

/-- Checks the working directory of a build. -/
def checkWorkingDir (t : FileTree) (workingDir : Path) : Except BuildError Unit := do
  if !(← ask (t.exists? workingDir)) then .ok ()
  else if ← ask (t.isDirectory? workingDir) then .ok ()
  else .error (.workingNotDirectory workingDir)

/-- Checks the name of an encoding. -/
def checkEncoding (name : Text) : Except BuildError Unit :=
  match Encoding.find name with
  | .ok _ => .ok ()
  | .error .unknown => .error (.encodingUnknown name)
  | .error .nullCharacter => .error .nullCharacter
  | .error .half => .error .half

/-- A build with these places, if they and the encoding are fit for one. -/
def open? (t : FileTree) (source workingDir : Path) (attributes : Attributes) (encoding : Text) :
    Except BuildError Build := do
  checkSource t source
  checkWorkingDir t workingDir
  checkEncoding encoding
  .ok ⟨Path.absolute t.cwdPath source, Path.absolute t.cwdPath workingDir, attributes, encoding, [],
    none⟩

/-! ## The documents at the source -/

/-- The documents among the entries of a directory, each with the place for its copy. -/
def pagesAmong (t : FileTree) (source workingDir : Path) :
    List Name → Except BuildError (List (Path × Path))
  | [] => .ok []
  | n :: ns =>
      let entry := source.child n
      match Document.isPage? t entry with
      | .error f => .error (.uncertain f)
      | .ok isPage =>
          let rest := pagesAmong t source workingDir ns
          match isPage, Path.graft? source entry workingDir with
          | true, some target => rest.map ((entry, target) :: ·)
          | _, _ => rest

/-- The documents at the source, each with the place for its copy. -/
def topLevel (b : Build) (t : FileTree) :
    List Event × Except BuildError (List (Path × Path)) :=
  match t.isDirectory? b.source with
  | .error f => ([], .error (.uncertain f))
  | .ok false =>
      ([], .ok [(b.source, b.workingDir.join ⟨.here, b.source.names.getLast?.toList⟩)])
  | .ok true =>
      match t.list b.source with
      | .error f => ([.listed b.source], .error (.unlistable b.source f))
      | .ok ns => ([.listed b.source], pagesAmong t b.source b.workingDir ns)

/-! ## Running -/

/-- What a run leaves: the file tree, the events, the copies made so far, and the pages or an
error. -/
structure Progress where
  tree : FileTree
  events : List Event
  written : List Path
  result : Except BuildError (List Page)

/-- Makes the page of one document and the copies of all documents below it. -/
def makePage (b : Build) (t : FileTree) (written : List Path) (file target : Path) : Progress :=
  let found := Search.collect ⟨t, b.attributes, b.encoding⟩ file target .empty
  match found.result with
  | .error e => ⟨t, found.events, written, .error e⟩
  | .ok page =>
      let o := Relink.copyAll ⟨b.attributes, b.encoding, Reference.all⟩ found.targets written t
      match o.result with
      | .error e => ⟨o.tree, found.events ++ o.events, written, .error e⟩
      | .ok new => ⟨o.tree, found.events ++ o.events, written ++ new, .ok [page]⟩

/-- Makes the pages of some documents, in order. -/
def makePages (b : Build) : List (Path × Path) → FileTree → List Path → Progress
  | [], t, written => ⟨t, [], written, .ok []⟩
  | (file, target) :: rest, t, written =>
      let p := makePage b t written file target
      match p.result with
      | .error e => ⟨p.tree, p.events, p.written, .error e⟩
      | .ok page =>
          let q := makePages b rest p.tree p.written
          ⟨q.tree, p.events ++ q.events, q.written, q.result.map (page ++ ·)⟩

/-- Makes the pages of a build that has none. -/
def make (b : Build) (t : FileTree) : Progress :=
  match b.topLevel t with
  | (es, .error e) => ⟨t, es, b.written, .error e⟩
  | (es, .ok docs) =>
      let p := makePages b docs t b.written
      { p with events := es ++ p.events }

/-- The pages of a build, which are made if it has none. -/
def run (b : Build) (t : FileTree) : Progress :=
  match b.pages with
  | some pages => ⟨t, [], b.written, .ok pages⟩
  | none => b.make t

def after (b : Build) (p : Progress) : Build :=
  { b with
    written := p.written
    pages := match p.result with
      | .ok pages => some pages
      | .error _ => b.pages }

theorem run_of_pages {b : Build} {pages : List Page} (h : b.pages = some pages) (t : FileTree) :
    b.run t = ⟨t, [], b.written, .ok pages⟩ := by
  simp [run, h]

end Build

end Folio
