import Folio.Build
import Folio.Settings

/-!
# The command

The command resolves the settings, makes the pages and reports them. It prints the pages as indented
lines and then the copies that it has written, and it logs its decisions. **Before it writes it may
clear the working directory**, so that no copy of an earlier run is left.

* `Command.run` is the whole command on a file tree.

Main results: `run_of_settings_error`, without settings nothing is changed; `run_of_skip`, with
settings to skip nothing is changed either.
-/

namespace Folio

/-- What the command is asked for: the choices of settings, whether the working directory is removed
first, and whether every decision is logged. -/
structure Command where
  choices : Settings.Choices
  clean : Bool
  verbose : Bool

/-- Why the command fails: there are no settings, the working directory cannot be looked up or
removed, or the build fails. -/
inductive CommandError where
  | settings (e : SettingsError)
  | removal (f : Fault)
  | build (e : BuildError)
deriving DecidableEq

namespace Command

/-- What the command leaves: the file tree, the lines printed and logged, and whether it failed. -/
structure Report where
  tree : FileTree
  out : List Text
  log : List Text
  result : Except CommandError Unit

/-! ## Lines -/

/-- The part of the program that logs the decisions of a build. -/
def buildLogger : Text := "adoc_pages.listener".toList

/-- The part of the program that logs what the command itself does. -/
def commandLogger : Text := "adoc_pages.cli".toList

/-- The line for a message of some part of the program. -/
def logLine (level : Level) (logger message : Text) : Text :=
  level.text ++ ' ' :: logger ++ ':' :: ' ' :: message

/-- The least level that is logged. -/
def leastLevel (c : Command) : Level := if c.verbose then .debug else .info

/-- The line for a message, if its level is logged. -/
def logged (c : Command) (level : Level) (logger message : Text) : List Text :=
  if c.leastLevel.shows level then [logLine level logger message] else []

/-- The lines for the events of a build. -/
def eventLines (c : Command) (es : List Event) : List Text :=
  es.flatMap fun e => c.logged e.level buildLogger e.message

/-- The line for a copy, with its path relative to the current directory if it lies below it. -/
def writtenLine (cwd p : Path) : Text := "wrote ".toList ++ Page.label cwd p

/-- The lines for the pages of a build and the copies written. -/
def printed (cwd workingDir : Path) (pages : List Page) (written : List Path) : List Text :=
  Page.report workingDir pages ++ written.map (writtenLine cwd)

/-! ## Running -/

/-- Removes the working directory, if there is one and it is to be removed. -/
def clear (c : Command) (t : FileTree) (workingDir : Path) : Report :=
  if c.clean then
    match t.isDirectory? workingDir with
    | .error f => ⟨t, [], [], .error (.removal f)⟩
    | .ok false => ⟨t, [], [], .ok ()⟩
    | .ok true =>
        let (t', r) := t.removeDirectory workingDir
        let message := "Removing working directory ".toList ++ workingDir.toText
        ⟨t', [], c.logged .debug commandLogger message, r.mapError .removal⟩
  else ⟨t, [], [], .ok ()⟩

def build (c : Command) (t : FileTree) (s : Settings) : Report :=
  match Build.open? t s.source s.workingDir s.attributes s.encoding with
  | .error e => ⟨t, [], [], .error (.build e)⟩
  | .ok b =>
      let p := b.run t
      match p.result with
      | .error e => ⟨p.tree, [], c.eventLines p.events, .error (.build e)⟩
      | .ok pages =>
          ⟨p.tree, printed t.cwdPath b.workingDir pages p.written, c.eventLines p.events, .ok ()⟩

/-- Does what settings say, unless they say to skip. -/
def perform (c : Command) (t : FileTree) (s : Settings) : Report :=
  if s.skip then
    ⟨t, [], c.logged .info commandLogger "skipping run as per configuration.".toList, .ok ()⟩
  else
    let cleared := c.clear t s.workingDir
    match cleared.result with
    | .error e => { cleared with result := .error e }
    | .ok () =>
        let built := c.build cleared.tree s
        { built with log := cleared.log ++ built.log }

def run (homes : Settings.Homes) (c : Command) (t : FileTree)
    (lib : Settings.Library := .standard) : Report :=
  match Settings.resolve homes t c.choices lib with
  | .error e => ⟨t, [], [], .error (.settings e)⟩
  | .ok s => c.perform t s

theorem run_of_settings_error {homes : Settings.Homes} {c : Command} {t : FileTree}
    {lib : Settings.Library} {e : SettingsError}
    (h : Settings.resolve homes t c.choices lib = .error e) :
    c.run homes t lib = ⟨t, [], [], .error (.settings e)⟩ := by
  simp [run, h]

theorem run_of_skip {homes : Settings.Homes} {c : Command} {t : FileTree} {lib : Settings.Library}
    {s : Settings} (h : Settings.resolve homes t c.choices lib = .ok s) (hs : s.skip = true) :
    (c.run homes t lib).tree = t ∧ (c.run homes t lib).result = .ok () := by
  simp [run, h, perform, hs]

end Command

end Folio
