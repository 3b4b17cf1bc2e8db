import Folio.Grammar
import Folio.Path

/-!
# Events

A build decides many things. Each decision is an event, and the events of a build are a part of its
result. An event has a level and a message, which make a log of them.

Main result: `level_eq_warning_iff`, only a reference to a missing file calls for attention.
-/

namespace Folio

/-! ## Decisions -/

/-- A decision of a build. In every event `file` is the document that is worked on and `target` its
copy; `path` is the path as it is written in a reference, and `actual` the path it denotes. An
included document is promoted to a page with its copy at `result`, kept in its place, or has been a
page before; a reference is made to lead to `result`, or leads to no file and is left as it is. -/
inductive Event where
  | listed (directory : Path)
  | entered (file target : Path)
  | promoted (path : Text) (actual result file target : Path)
  | kept (path : Text) (actual file target : Path)
  | revisited (path : Text) (actual file target : Path)
  | copied (file target : Path)
  | repointed (path : Text) (actual result file target : Path) (kind : Reference)
  | missing (path : Text) (actual file target : Path) (kind : Reference)
deriving DecidableEq

/-- How much attention a message needs. -/
inductive Level where
  | debug
  | info
  | warning
deriving DecidableEq

namespace Level

def text : Level → Text
  | debug => "DEBUG".toList
  | info => "INFO".toList
  | warning => "WARNING".toList

/-- Whether messages of a level are shown when those from `least` on are. -/
def shows (least level : Level) : Bool :=
  match least, level with
  | debug, _ => true
  | info, debug => false
  | info, _ => true
  | warning, warning => true
  | warning, _ => false

end Level

/-! ## Messages -/

namespace Event

def level : Event → Level
  | missing .. => .warning
  | _ => .debug

theorem level_eq_warning_iff {e : Event} :
    e.level = .warning ↔
      ∃ path actual file target kind, e = missing path actual file target kind := by
  cases e <;> simp [level]

/-- A reference as a message shows it. -/
def quoted (start path : Text) : Text := '\x27' :: start ++ path ++ ['\x27']

/-- An included path as a message shows it. -/
def quotedInclusion (path : Text) : Text := quoted Reference.inclusion.start path

def message : Event → Text
  | listed d => "Processing directory ".toList ++ d.toText
  | entered file _ => "Processing file ".toList ++ file.toText
  | promoted path _ result file _ =>
      "Mapping ".toList ++ quotedInclusion path ++ " in ".toList ++ file.toText ++ " to ".toList ++
        result.toText
  | kept path _ file _ =>
      "Include reference ".toList ++ quotedInclusion path ++ " in ".toList ++ file.toText ++
        " will not receive a separate page".toList
  | revisited path actual file _ =>
      "Include reference ".toList ++ quotedInclusion path ++ " in ".toList ++ file.toText ++
        " already has a page at ".toList ++ actual.toText
  | copied file _ => "Processing (include) page ".toList ++ file.toText
  | repointed path _ result file _ kind =>
      "Changing path ".toList ++ quoted kind.start path ++ " in ".toList ++ file.toText ++
        " to refer to ".toList ++ result.toText
  | missing path actual file _ kind =>
      "Ignoring path ".toList ++ quoted kind.start path ++ " in ".toList ++ file.toText ++
        " since not available locally: ".toList ++ actual.toText

end Event

end Folio
