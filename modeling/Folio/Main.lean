import Folio.Command.Arguments
import Folio.Disk

/-!
# The program

The command line. It reads the arguments and the environment, loads the parts of the disk that the
command may look at, runs the command, saves what it has changed, and prints its lines.
-/

namespace Folio

namespace Program

def usage : String :=
  "usage: preprocess [--config FILE] [--source PATH] [--working-dir PATH] [--encoding NAME] " ++
    "[--attribute NAME=VALUE]... [--clean] [--verbose]"

/-- The variables of the environment that the program knows. -/
def variableNames : List String :=
  ["HOME", "INPUT_CONFIG", "INPUT_SOURCE", "INPUT_WORKING_DIR", "INPUT_ENCODING"]

/-- The variables that are set, with their values. -/
def readEnvironment : IO (List (Text × Text)) := do
  let mut found := []
  for name in variableNames do
    if let some value ← IO.getEnv name then found := (name.toList, value.toList) :: found
  return found

/-- Loads the directories of some places. -/
def loadAll (t : FileTree) (places : List Path) : IO FileTree := do
  let mut t := t
  for p in places do t ← Disk.load t (Path.absolute t.cwdPath p)
  return t

/-- Loads what the command may look at: the current directory, the directory of its file, and what
its settings name. -/
def loadFor (homes : Settings.Homes) (c : Command) : IO FileTree := do
  let cwd := Disk.pathOf (← IO.currentDir).toString
  let t ← loadAll (.empty cwd.names) (cwd :: (c.choices.file.map Path.parent).toList)
  match Settings.resolve homes t c.choices with
  | .error _ => return t
  | .ok s => loadAll t [s.source.parent, s.source, s.workingDir]

/-- What is said about an error. -/
def errorText : CommandError → Text
  | .settings e => e.message?.getD "The settings cannot be read.".toList
  | .build e => e.message?.getD "The pages cannot be made.".toList
  | .removal _ => "The working directory cannot be removed.".toList

/-- Runs a command on the disk. -/
def run (homes : Settings.Homes) (c : Command) : IO UInt32 := do
  let t ← loadFor homes c
  let r := c.run homes t
  Disk.save t r.tree
  for line in r.log do IO.eprintln (String.ofList line)
  for line in r.out do IO.println (String.ofList line)
  match r.result with
  | .ok () => return 0
  | .error e =>
      IO.eprintln (String.ofList (errorText e))
      return 1

end Program

end Folio

open Folio in
/-- The program. -/
def main (args : List String) : IO UInt32 := do
  let environment ← Program.readEnvironment
  let look (name : Text) : Option Text := environment.lookup name
  let homes : Settings.Homes := fun user => if user = [] then look "HOME".toList else none
  match Arguments.read? look (args.map String.toList) with
  | some c => Program.run homes c
  | none =>
      IO.eprintln Program.usage
      return 1
