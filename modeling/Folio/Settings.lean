import Folio.Attributes.Assignment
import Folio.Encoding
import Folio.FileTree.Resolve
import Folio.Yaml.Content

/-!
# Settings

What is built, and how, is said by settings. They come from a file, a YAML mapping, and from the
command line, whose choices override those of the file.

**Paths of a file** are taken from the directory of the file, and may begin with the home directory
of a user; paths of the command line are taken as they are. **The order of the checks** is part of
the rules, since of several faults in a file the first one is reported: the texts of the source, the
working directory and the encoding, whether to skip, the homes, the name of the encoding, the
attributes.

What the text of a file means, and which encodings there are, is not said here: the loader of YAML
and the registry of encodings are a `Library`, and **the settings are those of any library**. The
standard one is that of this program, with its own loader and encodings.

* `Settings.load` reads the settings of a file.
* `Settings.resolve` joins them with the choices of the command line.

Main result: `Library.find_standard`, the standard library finds the encodings of this program.
-/

namespace Folio

/-- What is built, and how; with `skip`, nothing is to be done. -/
structure Settings where
  source : Path
  workingDir : Path
  encoding : Text
  attributes : Attributes
  skip : Bool

/-- Why there are no settings. A file is `invalid` if it has no value, and its value `textless` if
something in it has no text; `assignment` is about the command line. -/
inductive SettingsError where
  | noFile (p : Path)
  | unreadable (f : Fault)
  | invalid (e : Yaml.Error)
  | textless (f : Store.TextFault)
  | noMapping
  | noSource
  | skipNotBool
  | noHome
  | encoding (name : Text) (fault : Encoding.NameFault)
  | attributesNotMapping
  | assignment (item : Text)
  | nothingGiven
deriving DecidableEq

namespace SettingsError

def quoted (s : Text) : Text := '\x27' :: s ++ ['\x27']

/-- What is reported about an error. -/
def message? : SettingsError → Option Text
  | noFile p => some ("Configuration file ".toList ++ quoted p.toText ++ " not found.".toList)
  | noMapping => some "Top-level YAML structure must be a mapping.".toList
  | noSource =>
      some ("No ".toList ++ quoted "source".toList ++
        " defined in preprocessing configuration.".toList)
  | skipNotBool => some (quoted "skip".toList ++ " must be a boolean.".toList)
  | encoding name .unknown => some ("Unknown source encoding ".toList ++ quoted name ++ ['.'])
  | attributesNotMapping =>
      some (quoted "attributes".toList ++ " must be a mapping of names to values.".toList)
  | assignment item =>
      some ("Invalid attribute assignment ".toList ++ quoted item ++
        ". Expected NAME=VALUE.".toList)
  | nothingGiven => some "Either --config or --source must be provided.".toList
  | unreadable _ | invalid _ | textless _ | noHome
  | encoding _ .nullCharacter | encoding _ .half => none

end SettingsError

namespace Settings

/-! ## Libraries -/

/-- What the settings of a file rest on: the loader, which gives the content of bytes, if they have
one, and whether there is an encoding of a name that can be looked up. -/
structure Library where
  parse : List UInt8 → Except Yaml.Error Yaml.Content
  knows : Text → Bool

namespace Library

/-- The loader and the encodings of this program. -/
def standard : Library where
  parse bytes := Yaml.Content.ofInput (.ofBytes bytes)
  knows name := (Encoding.ofName? name).isSome

/-- Looks up an encoding by its name. Some names cannot be looked up at all. -/
def find (lib : Library) (name : Text) : Except Encoding.NameFault Unit :=
  if name.any Half.isHalf then .error .half
  else if '\x00' ∈ name then .error .nullCharacter
  else if lib.knows name then .ok ()
  else .error .unknown

theorem find_standard (name : Text) : standard.find name = (Encoding.find name).map fun _ => () := by
  rw [find, Encoding.find]
  split
  · rfl
  · split
    · rfl
    · cases h : Encoding.ofName? name <;> simp [standard, h, Except.map]

end Library

/-! ## Defaults -/

/-- Where the copies are made if nothing is said about it. -/
def defaultWorkingDir : Text := "build/adoc-pages/preprocessed".toList

/-- The encoding if nothing is said about it. -/
def defaultEncoding : Text := "utf-8".toList

/-- The settings with a source and nothing else. -/
def ofSource (source : Path) : Settings :=
  ⟨source, .ofText defaultWorkingDir, defaultEncoding, .empty, false⟩

/-! ## Homes -/

/-- The home directories of users, by their names; the empty name is that of the user at work. -/
abbrev Homes := Text → Option Text

/-- The path with a home directory in place of a first name that begins with a tilde. -/
def expand (homes : Homes) (p : Path) : Option Path :=
  match p.anchor, p.names with
  | .here, n :: names =>
      match n.text with
      | '~' :: user => (homes user).map fun home => (Path.ofText home).join ⟨.here, names⟩
      | _ => some p
  | _, _ => some p

/-- The path of a text in a file whose directory is `base`. -/
def place (homes : Homes) (base : Path) (s : Text) : Except SettingsError Path :=
  match expand homes (.ofText s) with
  | some p => .ok (base.join p)
  | none => .error .noHome

/-! ## Files -/

/-- The value at a name in a mapping. -/
def find? (name : String) (entries : List (Value × Value)) : Option Value :=
  Value.find? (.atom (.text name.toList)) entries

def textOf (store : Store) (v : Value) : Except SettingsError Text :=
  match store.toText v with
  | .ok s => .ok s
  | .error f => .error (.textless f)

/-- The text at a name in a mapping, without white space around it, if there is one. -/
def text? (store : Store) (name : String) (entries : List (Value × Value)) :
    Except SettingsError (Option Text) :=
  match find? name entries with
  | none | some (.atom .null) => .ok none
  | some v => do
      match Text.trim (← textOf store v) with
      | [] => return none
      | s => return some s

/-- Whether nothing is to be done. -/
def skipOf (entries : List (Value × Value)) : Except SettingsError Bool :=
  match find? "skip" entries with
  | none => .ok false
  | some (.atom (.bool b)) => .ok b
  | some _ => .error .skipNotBool

/-- The text of an attribute in a file: nothing is an empty text. -/
def attributeText (store : Store) : Value → Except SettingsError Text
  | .atom .null => .ok []
  | v => textOf store v

def attributesOf (store : Store) (entries : List (Value × Value)) :
    Except SettingsError Attributes :=
  match find? "attributes" entries with
  | none | some (.atom .null) => .ok .empty
  | some v =>
      match store.entries? v with
      | some es => do
          let texts ← es.mapM fun e => do return (← textOf store e.1, ← attributeText store e.2)
          return .ofList texts
      | none => .error .attributesNotMapping

/-- Checks the name of an encoding. -/
def checkEncoding (lib : Library) (name : Text) : Except SettingsError Unit :=
  (lib.find name).mapError (.encoding name)

/-- The settings in the entries of a file whose directory is `base`. -/
def ofEntries (lib : Library) (homes : Homes) (base : Path) (store : Store)
    (entries : List (Value × Value)) : Except SettingsError Settings := do
  match ← text? store "source" entries with
  | none => .error .noSource
  | some source => do
      let workingDir := (← text? store "working_dir" entries).getD defaultWorkingDir
      let encoding := (← text? store "source_encoding" entries).getD defaultEncoding
      let skip ← skipOf entries
      let source ← place homes base source
      let workingDir ← place homes base workingDir
      checkEncoding lib encoding
      return ⟨source, workingDir, encoding, ← attributesOf store entries, skip⟩

/-- The settings in the content of a file whose directory is `base`. What counts as nothing is a
mapping without entries. -/
def ofContent (lib : Library) (homes : Homes) (base : Path) (c : Yaml.Content) :
    Except SettingsError Settings :=
  if c.store.isEmpty c.root then ofEntries lib homes base c.store []
  else
    match c.store.entries? c.root with
    | some entries => ofEntries lib homes base c.store entries
    | none => .error .noMapping

/-- The bytes of a file with settings. -/
def readFile (t : FileTree) (p : Path) : Except SettingsError (List UInt8) :=
  match t.exists? p with
  | .error f => .error (.unreadable f)
  | .ok false => .error (.noFile p)
  | .ok true => (t.readFile p).mapError .unreadable

/-- Reads the settings of a file. -/
def load (homes : Homes) (t : FileTree) (p : Path) (lib : Library := .standard) :
    Except SettingsError Settings := do
  match lib.parse (← readFile t p) with
  | .error e => .error (.invalid e)
  | .ok c => ofContent lib homes p.parent c

/-! ## The command line -/

/-- The choices of the command line. -/
structure Choices where
  file : Option Path
  source : Option Path
  workingDir : Option Path
  encoding : Option Text
  assignments : List Text

/-- The settings that the choices start from: those of the file, or those with the source alone. -/
def start (homes : Homes) (t : FileTree) (c : Choices) (lib : Library := .standard) :
    Except SettingsError Settings :=
  match c.file, c.source with
  | some file, source? => do
      let s ← load homes t file lib
      return { s with source := source?.getD s.source }
  | none, some source => .ok (ofSource source)
  | none, none => .error .nothingGiven

/-- The settings of the file, if there is one, with the choices of the command line. -/
def resolve (homes : Homes) (t : FileTree) (c : Choices) (lib : Library := .standard) :
    Except SettingsError Settings := do
  let s ← start homes t c lib
  match s.attributes.assign c.assignments with
  | .error item => .error (.assignment item)
  | .ok attributes =>
      return { s with
        workingDir := c.workingDir.getD s.workingDir
        encoding := c.encoding.getD s.encoding
        attributes }

end Settings

end Folio
