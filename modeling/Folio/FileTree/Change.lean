import Folio.FileTree.Resolve

/-!
# Changing a file tree

Directories are made, files written and directories removed by path. An operation that fails may
have done a part of its work, so each gives **the tree it leaves** beside its result.

* `FileTree.makeDirectory` makes one directory, `FileTree.makeDirectories` also the missing ones
  above it.
* `FileTree.writeFile` writes a whole file, through links as reading does, and `FileTree.makeLink`
  makes a link.
* `FileTree.putEntries` puts entries at paths, one after the other, and `FileTree.ofFiles` makes a
  tree of files in this way.
* `FileTree.removeDirectory` and `FileTree.removeEntry` remove what stands at a path.
-/

namespace Folio

namespace FileTree

/-! ## Adding entries -/

/-- Puts an entry at a free name of a directory. -/
def add (t : FileTree) (n : Name) (loc : Location) (e : Entry) : Except Fault FileTree :=
  if hloc : t.entryAt loc = some .directory then
    match hn : t.entryAt (n :: loc) with
    | none => .ok (t.put n loc e hloc (by simp [hn]))
    | some _ => .error .alreadyExists
  else .error .notDirectory

/-- Makes an entry at the end of a path, in a directory that exists. A link at the end is not
followed. -/
def make (t : FileTree) (p : Path) (e : Entry) : Except Fault FileTree :=
  match refusal? p with
  | some f => .error f
  | none =>
      match p.names.getLast? with
      | none => .error .alreadyExists
      | some n =>
          match t.walk linkLimit false [] (t.namesOf p.parent) with
          | .error f => .error f
          | .ok (.free _ _) => .error .missing
          | .ok (.entry loc) =>
              if t.entryAt loc ≠ some .directory then .error .notDirectory
              else if n = .up then .error .alreadyExists
              else if nameLimit < n.text.byteLength then .error .tooLong
              else t.add n loc e

/-- Makes the directory at a path, in a directory that exists. -/
def makeDirectory (t : FileTree) (p : Path) : Except Fault FileTree := t.make p .directory

/-- What remains of a failed attempt to make the directory at `p`: none if it is there already. -/
def settle (t : FileTree) (p : Path) (f : Fault) : Except Fault Unit :=
  match t.isDirectory? p with
  | .ok true => .ok ()
  | .ok false => .error f
  | .error g => .error g

/-- Makes the directory whose names are given last name first, and the missing directories above
it; one that exists is left alone. -/
def makeDirectoriesUp (anchor : Anchor) : List Name → FileTree → FileTree × Except Fault Unit
  | [], t =>
      match t.makeDirectory ⟨anchor, []⟩ with
      | .ok t' => (t', .ok ())
      | .error .missing => (t, .error .missing)
      | .error f => (t, t.settle ⟨anchor, []⟩ f)
  | n :: up, t =>
      let p : Path := ⟨anchor, (n :: up).reverse⟩
      match t.makeDirectory p with
      | .ok t' => (t', .ok ())
      | .error .missing =>
          match makeDirectoriesUp anchor up t with
          | (t', .error f) => (t', .error f)
          | (t', .ok ()) =>
              match t'.makeDirectory p with
              | .ok t'' => (t'', .ok ())
              | .error .missing => (t', .error .missing)
              | .error f => (t', t'.settle p f)
      | .error f => (t, t.settle p f)

/-- Makes the directory at a path with all missing directories above it. -/
def makeDirectories (t : FileTree) (p : Path) : FileTree × Except Fault Unit :=
  makeDirectoriesUp p.anchor p.names.reverse t

/-! ## Writing -/

/-- Writes the file at a path: a new one at a free name, or a new content for one that exists. -/
def writeFile (t : FileTree) (p : Path) (content : List UInt8) : Except Fault FileTree :=
  match t.resolve p with
  | .error f => .error f
  | .ok (.free loc n) => t.add n loc (.file content)
  | .ok (.entry []) => .error .isDirectory
  | .ok (.entry (n :: loc)) =>
      match hn : t.entryAt (n :: loc) with
      | some (.file _) =>
          .ok (t.put n loc (.file content) (entryAt_parent hn) (by simp [hn]))
      | some .directory => .error .isDirectory
      | _ => .error .missing

/-- The fault of a text that no link can have. -/
def linkRefusal? (target : Text) : Option Fault :=
  if '\x00' ∈ target then some .nullCharacter
  else if target = [] then some .missing
  else if pathLimit ≤ target.byteLength then some .tooLong
  else none

/-- Makes a symbolic link at a path. -/
def makeLink (t : FileTree) (p : Path) (target : Text) : Except Fault FileTree :=
  match linkRefusal? target with
  | some f => .error f
  | none => t.make p (.link target)

/-- Puts an entry at a path, and makes the missing directories above it. A directory may be there
already, and a file is written through links. -/
def putEntry (t : FileTree) (p : Path) (e : Entry) : FileTree × Except Fault Unit :=
  match e with
  | .directory => t.makeDirectories p
  | e =>
      match t.makeDirectories p.parent with
      | (t, .error f) => (t, .error f)
      | (t, .ok ()) =>
          let made :=
            match e with
            | .link target => t.makeLink p target
            | .file content => t.writeFile p content
            | .directory => .ok t
          match made with
          | .ok t => (t, .ok ())
          | .error f => (t, .error f)

/-- Puts entries at paths up to the first one that cannot be put there. -/
def putEntries : List (Path × Entry) → FileTree → FileTree × Except Fault Unit
  | [], t => (t, .ok ())
  | (p, e) :: rest, t =>
      match t.putEntry p e with
      | (t, .ok ()) => putEntries rest t
      | (t, .error f) => (t, .error f)

/-- The tree with these files and the directories above them, from their paths and contents; a
content is a text of characters below 256, one for each byte. -/
def ofFiles (files : List (String × String)) : FileTree :=
  (putEntries (files.map fun f => (Path.ofText f.1.toList,
    .file (f.2.toList.map fun c => UInt8.ofNat c.toNat))) (empty [])).1

/-! ## Removing -/

/-- The location of the entry at a path, where a link at the end is not followed. -/
def locate (t : FileTree) (p : Path) : Except Fault Location :=
  match refusal? p with
  | some f => .error f
  | none =>
      match p.names.getLast? with
      | none => .ok (t.namesOf p).reverse
      | some n =>
          if n = .up then
            match t.resolve p with
            | .ok (.entry loc) => .ok loc
            | .ok (.free _ _) => .error .missing
            | .error f => .error f
          else
            match t.walk linkLimit false [] (t.namesOf p.parent) with
            | .error f => .error f
            | .ok (.free _ _) => .error .missing
            | .ok (.entry loc) =>
                if (t.entryAt (n :: loc)).isSome then .ok (n :: loc) else .error .missing

/-- Removes the directory at a path with everything below it. A link is not removed, and a path that
does not end in the name of the directory removes only what is below it. -/
def removeDirectory (t : FileTree) (p : Path) : FileTree × Except Fault Unit :=
  match t.locate p with
  | .error f => (t, .error f)
  | .ok loc =>
      match t.entryAt loc with
      | some .directory =>
          match p.names.getLast? with
          | none => (t.clear loc, .error .notRemovable)
          | some n =>
              if n = .up then (t.clear loc, .error .notRemovable) else (t.prune loc, .ok ())
      | some (.link _) => (t, .error .isLink)
      | _ => (t, .error .notDirectory)

/-- Removes the entry at a path, with everything below it if it is a directory. A link at the end is
not followed. -/
def removeEntry (t : FileTree) (p : Path) : FileTree × Except Fault Unit :=
  match t.locate p with
  | .error f => (t, .error f)
  | .ok loc =>
      if t.entryAt loc = some .directory then t.removeDirectory p else (t.prune loc, .ok ())

end FileTree

end Folio
