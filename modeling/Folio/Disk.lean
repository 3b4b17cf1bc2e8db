import Folio.FileTree.Change

/-!
# The disk

The outer layer between file trees and the disk. `Disk.load` reads a part of the disk into a file
tree, and `Disk.save` makes the disk hold what a program has changed in the tree. A symbolic link is
read as one to the place where it ends.
-/

namespace Folio

namespace Disk

/-- The path of a text that the system gives. -/
def pathOf (s : String) : Path := .ofText s.toList

/-- The text of a path for the system. -/
def systemText (p : Path) : String := String.ofList p.toText

/-- The absolute path of a location. -/
def locationPath (loc : Location) : Path := ⟨.root, loc.reverse⟩

/-- Reads the entry at an absolute path with everything below it. -/
partial def loadEntry (t : FileTree) (p : Path) : IO FileTree := do
  let here ← IO.currentDir
  let file := here / systemText p
  match ← file.symlinkMetadata.toBaseIO with
  | .error _ => return t
  | .ok found =>
      match found.type with
      | .dir =>
          let mut t := (t.makeDirectories p).1
          for e in ← file.readDir do
            t ← loadEntry t (p.join (pathOf e.fileName))
          return t
      | .symlink =>
          match ← (IO.FS.realPath file).toBaseIO with
          | .error _ => return t
          | .ok target => return ((t.makeLink p target.toString.toList).toOption).getD t
      | _ =>
          match ← (IO.FS.readBinFile file).toBaseIO with
          | .error _ => return t
          | .ok content => return ((t.writeFile p content.data.toList).toOption).getD t

/-- Reads what stands at and below an absolute path, unless it has been read. -/
def load (t : FileTree) (p : Path) : IO FileTree := do
  match t.exists? p with
  | .ok true => return t
  | _ => loadEntry (t.makeDirectories p.parent).1 p

/-- Removes the entry at a location from the disk. -/
def remove (loc : Location) (e : Entry) : IO Unit := do
  let file := systemText (locationPath loc)
  match e with
  | .directory => IO.FS.removeDir file
  | _ => IO.FS.removeFile file

/-- Makes the entry at a location on the disk; a program makes no links. -/
def make (loc : Location) (e : Entry) : IO Unit := do
  let file := systemText (locationPath loc)
  match e with
  | .directory => IO.FS.createDirAll file
  | .file content => IO.FS.writeBinFile file ⟨content.toArray⟩
  | .link _ => pure ()

/-- Whether two entries are of one kind. -/
def sameKind : Entry → Entry → Bool
  | .file _, .file _ | .directory, .directory | .link _, .link _ => true
  | _, _ => false

/-- Changes the disk from what one tree holds to what another one does: what is gone is removed, the
innermost entries first, and what is new or different is made, the outermost entries first. -/
def save (before after : FileTree) : IO Unit := do
  let gone := before.entries.entries.filter fun e => !(after.entryAt e.1).any (sameKind e.2)
  let new := after.entries.entries.filter fun e => decide (before.entryAt e.1 ≠ some e.2)
  for e in gone.mergeSort fun a b => decide (b.1.length ≤ a.1.length) do remove e.1 e.2
  for e in new.mergeSort fun a b => decide (a.1.length ≤ b.1.length) do make e.1 e.2

end Disk

end Folio
