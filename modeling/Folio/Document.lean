import Folio.Attributes
import Folio.Encoding
import Folio.FileTree.Change
import Folio.Grammar

/-!
# Documents

What makes a file a document, how the references in it name other files, and how its lines are read
and written.

* `Document.isPageName` tells which files may become pages: those whose name ends in `.adoc` and
  does not begin with an underscore.
* `Document.refer` and `Document.targetOf` follow a reference from a document, and find the place of
  the document it names beside the copy of the first.
* `Document.read` and `Document.write` read and write the lines of a file.
-/

namespace Folio

/-! ## Errors -/

/-- What stands behind an error of reading or writing: the file tree refuses, bytes are not those of
a text or a character has no bytes, or there is no encoding of this name that writes texts. -/
inductive Cause where
  | system (f : Fault)
  | text
  | encoding
deriving DecidableEq

/-- Why a build fails. It is `uncertain` whether there is a file at some path if this cannot be
looked up, and a search that goes into more documents than there are paths is `endless`, which does
not happen. The last cases are about a path or the name of an encoding that no call accepts. -/
inductive BuildError where
  | sourceMissing (p : Path)
  | sourceUnsupported (p : Path)
  | workingNotDirectory (p : Path)
  | encodingUnknown (name : Text)
  | unreadable (p : Path) (c : Cause)
  | unwritable (p : Path) (c : Cause)
  | unlistable (p : Path) (f : Fault)
  | uncertain (f : Fault)
  | nullCharacter
  | half
  | endless
deriving DecidableEq

namespace BuildError

/-- What is reported about an error. -/
def message? : BuildError → Option Text
  | sourceMissing p => some ("Source not found: ".toList ++ p.toText)
  | sourceUnsupported p =>
      some ("Invalid source ".toList ++ p.toText ++ ". Must be a directory or adoc file.".toList)
  | workingNotDirectory p => some ("Working directory is not a directory: ".toList ++ p.toText)
  | encodingUnknown name => some ("Unknown source encoding: ".toList ++ name)
  | unreadable p _ => some ("Unable to read file ".toList ++ p.toText)
  | unwritable p _ => some ("Unable to write file ".toList ++ p.toText)
  | unlistable p _ => some ("Unable to list directory ".toList ++ p.toText)
  | uncertain _ | nullCharacter | half | endless => none

def cause? : BuildError → Option Cause
  | encodingUnknown _ => some .encoding
  | unreadable _ c | unwritable _ c => some c
  | unlistable _ f => some (.system f)
  | _ => none

end BuildError

namespace Document

/-! ## Names -/

/-- The ending of the name of a document. -/
def extension : Text := ['.', 'a', 'd', 'o', 'c']

/-- Whether a path has the name of a document that may become a page. -/
def isPageName (p : Path) : Bool :=
  extension.isSuffixOf p.baseName && p.baseName.head? != some '_'

/-- Whether there is a document at a path that may become a page. -/
def isPage? (t : FileTree) (p : Path) : Except Fault Bool :=
  if isPageName p then t.isFile? p else .ok false

/-- The word in front of the sign of equality in a mark. -/
def markName : Text := ['c', 'o', 'n', 'f', 'l', 'u', 'e', 'n', 'c', 'e']

/-- The word after the sign of equality in a mark. -/
def markValue : Text := ['i', 'n', 'c', 'l', 'u', 'd', 'e']

/-- Whether the further text of a reference carries the mark that keeps a document in its place: one
of the parts between its commas has just the two words of the mark around its signs of equality. -/
def isMarked (further : Text) : Bool :=
  (Text.splitOn ',' further).any fun part => Text.splitOn '=' part == [markName, markValue]

/-! ## References between documents -/

/-- The path that a reference in a document denotes. -/
def refer (file : Path) (reference : Text) : Path :=
  (file.parent.join (.ofText reference)).normalize

/-- The place beside the copy of a document at which another document has the same offset from it
as in the source. Paths that are not absolute are taken from `base`. -/
def targetOf (base file target other : Path) : Path :=
  (target.parent.join (Path.relativeTo base file.parent other)).normalize

/-! ## Lines -/

/-- The lines of a file in the encoding of this name. -/
def read (t : FileTree) (p : Path) (encoding : Text) : Except BuildError (List Text) :=
  if '\x00' ∈ encoding then .error .nullCharacter
  else
    match t.readFile p with
    | .error .nullCharacter => .error .nullCharacter
    | .error .half => .error (.unreadable p .text)
    | .error f => .error (.unreadable p (.system f))
    | .ok bytes =>
        match Encoding.ofName? encoding with
        | none => .error (.unreadable p .encoding)
        | some e =>
            if e.isText then
              match e.decode bytes with
              | none => .error (.unreadable p .text)
              | some s => .ok s.lines
            else .error (.unreadable p .encoding)

/-- The error for a fault in writing a file. -/
def writeError (p : Path) : Fault → BuildError
  | .nullCharacter => .nullCharacter
  | .half => .unwritable p .text
  | f => .unwritable p (.system f)

/-- The lines in front of the first one that the encoding cannot write. -/
def writable (e : Encoding) (lines : List Text) : List Text :=
  lines.takeWhile fun l => (e.encodeInner (l ++ ['\n'])).isSome

/-- Opens the file at a path for the text of some lines: an encoding that has no texts leaves it
empty, and a character without bytes ends it after the last line that can be written. -/
def fill (t : FileTree) (p : Path) (encoding : Text) (lines : List Text) :
    FileTree × Except BuildError Unit :=
  let content : List UInt8 × Option Cause :=
    match Encoding.ofName? encoding with
    | none => ([], some .encoding)
    | some e =>
        if e.isText then
          match e.encode (.ofLines lines) with
          | some bytes => (bytes, none)
          | none => ((e.encode (.ofLines (writable e lines))).getD [], some .text)
        else ([], some .encoding)
  match t.writeFile p content.1 with
  | .error f => (t, .error (writeError p f))
  | .ok t' =>
      match content.2 with
      | none => (t', .ok ())
      | some c => (t', .error (.unwritable p c))

/-- Writes lines to a file in the encoding of this name, and makes the directories above it. -/
def write (t : FileTree) (p : Path) (encoding : Text) (lines : List Text) :
    FileTree × Except BuildError Unit :=
  match t.makeDirectories p.parent with
  | (t', .error f) => (t', .error (writeError p f))
  | (t', .ok ()) =>
      if '\x00' ∈ encoding then (t', .error .nullCharacter) else fill t' p encoding lines

end Document

end Folio
