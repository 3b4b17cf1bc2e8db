import Folio.FileTree
import Folio.Text.Half

/-!
# Where paths lead

A path is followed name by name from the root or from the current directory. **Symbolic links are
followed** wherever they stand, also at the end; more than `linkLimit` of them on one way are taken
for a loop. A link whose text ends in a slash leads to directories only. A name may have at most
`nameLimit` bytes, and a whole path fewer than `pathLimit`. Names are texts, so a path with half a
pair is refused.

**All entries may be looked at and changed, and the current directory stays**: there are no faults
of permissions, of devices or of a directory that has vanished. That an operation fails in these
ways only is meant with this restriction.

* `FileTree.resolve` finds the place of a path: an entry, or a free name in a directory.
* `FileTree.exists?`, `isFile?` and `isDirectory?` answer questions about it. Most faults on the way
  mean that there is nothing; an overlong name is an error.
* `FileTree.readFile` and `FileTree.list` read files and directories.
-/

namespace Folio

/-! ## Faults -/

/-- Why an operation on a file tree fails. A path with a null character or half a pair is refused by
every call. -/
inductive Fault where
  | missing
  | notDirectory
  | isDirectory
  | tooLong
  | linkLoop
  | alreadyExists
  | isLink
  | notRemovable
  | nullCharacter
  | half
deriving DecidableEq

namespace Fault

/-- Whether the fault only says that there is nothing at the path. -/
def isAbsence : Fault → Bool
  | missing | notDirectory | linkLoop | nullCharacter | half => true
  | _ => false

end Fault

/-! ## Limits -/

/-- The number of links that are followed on one way. -/
def linkLimit : Nat := 40

/-- The number of bytes that a name may have. -/
def nameLimit : Nat := 255

/-- The number of bytes that no path reaches. -/
def pathLimit : Nat := 4096

/-- The number of bytes of a text in UTF-8. -/
def Text.byteLength (t : Text) : Nat := t.foldl (fun n c => n + c.utf8Size) 0

/-! ## Following a path -/

/-- Where a path leads: to an entry, or to a free name in a directory. -/
inductive Place where
  | entry (loc : Location)
  | free (loc : Location) (n : Name)
deriving DecidableEq

namespace FileTree

/-- Whether the text of a link leads to directories only: it ends in a slash, or in a slash and a
point. -/
def leadsToDirectory (target : Text) : Bool :=
  match (Text.splitOn '/' target).getLast? with
  | some [] | some ['.'] => true
  | _ => false

/-- Follows names from a location; at a link, `jump` goes on with the names of its target. The flag
tells whether the way must end at a directory. -/
def follow (t : FileTree) (jump : Bool → Location → List Name → Except Fault Place)
    (toDirectory : Bool) : Location → List Name → Except Fault Place
  | loc, [] =>
      if toDirectory ∧ t.entryAt loc ≠ some .directory then .error .notDirectory
      else .ok (.entry loc)
  | loc, n :: ns =>
      if t.entryAt loc ≠ some .directory then .error .notDirectory
      else if n = .up then follow t jump toDirectory loc.tail ns
      else if nameLimit < n.text.byteLength then .error .tooLong
      else
        match t.entryAt (n :: loc) with
        | none => if ns = [] ∧ toDirectory = false then .ok (.free loc n) else .error .missing
        | some (.link target) =>
            let p := Path.ofText target
            jump (toDirectory || (ns.isEmpty && leadsToDirectory target))
              (if p.isAbsolute then [] else loc) (p.names ++ ns)
        | some _ => follow t jump toDirectory (n :: loc) ns

/-- Follows names from a location through at most this many links. -/
def walk (t : FileTree) : Nat → Bool → Location → List Name → Except Fault Place
  | 0 => follow t fun _ _ _ => .error .linkLoop
  | links + 1 => follow t (walk t links)

/-- The names of a path from the root. -/
def namesOf (t : FileTree) (p : Path) : List Name :=
  if p.isAbsolute then p.names else t.cwd ++ p.names

/-- The current directory as a path. -/
def cwdPath (t : FileTree) : Path := ⟨.root, t.cwd⟩

/-- The fault of a path that no system call accepts. -/
def refusal? (p : Path) : Option Fault :=
  if p.toText.any Half.isHalf then some .half
  else if '\x00' ∈ p.toText then some .nullCharacter
  else if pathLimit ≤ p.toText.byteLength then some .tooLong
  else none

/-- The place to which a path leads. -/
def resolve (t : FileTree) (p : Path) : Except Fault Place :=
  match refusal? p with
  | some f => .error f
  | none => walk t linkLimit false [] (t.namesOf p)

/-! ## Questions -/

/-- The entry to which a path leads, links followed, or `none` if there is nothing. -/
def status? (t : FileTree) (p : Path) : Except Fault (Option Entry) :=
  match t.resolve p with
  | .ok (.entry loc) => .ok (t.entryAt loc)
  | .ok (.free _ _) => .ok none
  | .error f => if f.isAbsence then .ok none else .error f

/-- Whether there is anything at a path. -/
def exists? (t : FileTree) (p : Path) : Except Fault Bool :=
  (t.status? p).map fun e => e.isSome

/-- Whether there is a file at a path. -/
def isFile? (t : FileTree) (p : Path) : Except Fault Bool :=
  (t.status? p).map fun e =>
    match e with
    | some (.file _) => true
    | _ => false

/-- Whether there is a directory at a path. -/
def isDirectory? (t : FileTree) (p : Path) : Except Fault Bool :=
  (t.status? p).map fun e => e == some .directory

/-! ## Reading -/

/-- The bytes of the file at a path. -/
def readFile (t : FileTree) (p : Path) : Except Fault (List UInt8) :=
  match t.resolve p with
  | .error f => .error f
  | .ok (.free _ _) => .error .missing
  | .ok (.entry loc) =>
      match t.entryAt loc with
      | some (.file content) => .ok content
      | some .directory => .error .isDirectory
      | _ => .error .missing

/-- The names in the directory at a path, in alphabetical order. -/
def list (t : FileTree) (p : Path) : Except Fault (List Name) :=
  match t.resolve p with
  | .error f => .error f
  | .ok (.free _ _) => .error .missing
  | .ok (.entry loc) =>
      if t.entryAt loc = some .directory then .ok (t.namesIn loc) else .error .notDirectory

end FileTree

end Folio
