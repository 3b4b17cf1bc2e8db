import Folio.Command
import Folio.Decimal.Numeral

/-!
# The arguments of the command

The program has one command, whose name is followed by options and flags. An option has its value in
the next argument or after a sign of equality; a flag has none, or a word for yes or no after such a
sign. **Options and flags are given once at most**, except that assignments of attributes may be
repeated. A further flag says that no attribute is assigned. What is not given may come from the
environment: the value of an option, the word of a flag, or some assignments with white space
between them.

* `Arguments.read?` reads the arguments; there is no result if they are not used as they should be.

Main result: `once_cons`, an assignment may come before any arguments, unless one of them says that
there is none.
-/

namespace Folio

namespace Arguments

/-! ## Options and flags -/

inductive Choice where
  | config
  | source
  | workingDir
  | encoding
  | attribute
deriving DecidableEq

inductive Flag where
  | clean
  | verbose
deriving DecidableEq

/-- What an argument says: an option has a value, a flag is on or off, or no attribute is assigned.
-/
inductive Argument where
  | option (c : Choice) (value : Text)
  | flag (f : Flag) (on : Bool)
  | unassigned
deriving DecidableEq

def commandName : Text := "preprocess".toList

def options : List (String × Choice) :=
  [("--config", .config), ("--source", .source), ("--working-dir", .workingDir),
    ("--encoding", .encoding), ("--attribute", .attribute)]

/-- The names of the flags, which turn them on or off. -/
def flags : List (String × Flag × Bool) :=
  [("--clean", .clean, true), ("--no-clean", .clean, false), ("--verbose", .verbose, true),
    ("--no-verbose", .verbose, false)]

/-- The name of the flag that no attribute is assigned. -/
def unassignedName : String := "--empty-attribute"

/-- The variable of the environment from which an option may come. -/
def Choice.variable : Choice → Text
  | .config => "INPUT_CONFIG".toList
  | .source => "INPUT_SOURCE".toList
  | .workingDir => "INPUT_WORKING_DIR".toList
  | .encoding => "INPUT_ENCODING".toList
  | .attribute => "INPUT_ATTRIBUTE".toList

/-- The variable of the environment from which the word of a flag may come. -/
def Flag.variable : Flag → Text
  | .clean => "INPUT_CLEAN".toList
  | .verbose => "INPUT_VERBOSE".toList

/-! ## Reading -/

/-- The argument that ends the options. -/
def delimiter : Text := ['-', '-']

/-- Whether a text writes a number or a range of numbers. A hyphen and the imaginary unit alone
rather are a flag. -/
def isNumber (s : Text) : Bool :=
  (Decimal.isNumeral s && !Decimal.isUnit (s.drop 1)) || (Decimal.literal? s).isSome ||
    Decimal.isRange s

/-- Whether an argument is an option or a flag and no value: it begins with a hyphen and writes no
number. -/
def isOption (s : Text) : Bool := s.head? == some '-' && !isNumber s

/-- The value after the sign of equality in an argument. -/
def attached? (s : Text) : Option Text :=
  match s.dropWhile (· != '=') with
  | _ :: value => some value
  | [] => none

/-- The words for yes and no. -/
def word? (s : Text) : Option Bool :=
  let w := String.ofList (s.map Char.toLower)
  if ["yes", "y", "1", "true", "t"].contains w then some true
  else if ["no", "n", "0", "false", "f"].contains w then some false
  else none

/-- Whether a flag with perhaps a word after it is on; the word no turns its meaning round. -/
def isOn? (turnsOn : Bool) : Option Text → Option Bool
  | none => some turnsOn
  | some word => (word? word).map (· == turnsOn)

/-- Reads the arguments after the name of the command. -/
def ofTexts? : List Text → Option (List Argument)
  | [] => some []
  | s :: rest =>
      let name := String.ofList (s.takeWhile (· != '='))
      if s = delimiter then (if rest = [] then some [] else none)
      else
        match options.lookup name, flags.lookup name, attached? s with
        | some c, _, some value => (ofTexts? rest).map (.option c value :: ·)
        | some c, _, none =>
            match rest with
            | value :: rest =>
                if isOption value then none else (ofTexts? rest).map (.option c value :: ·)
            | [] => none
        | none, some (f, turnsOn), word => do
            let on ← isOn? turnsOn word
            return .flag f on :: (← ofTexts? rest)
        | none, none, word =>
            if name = unassignedName ∧ isOn? true word = some true then
              (ofTexts? rest).map (.unassigned :: ·)
            else none

/-- Whether an argument is about the same option or flag as another, and may not be
given with it. -/
def clashes : Argument → Argument → Bool
  | .option c _, .option d _ => c == d && c != .attribute
  | .flag f _, .flag g _ => f == g
  | .unassigned, .option c _ | .option c _, .unassigned => c == .attribute
  | .unassigned, .unassigned => true
  | _, _ => false

/-- Whether options and flags are given once at most. -/
def once : List Argument → Bool
  | [] => true
  | a :: rest => !rest.any (clashes a) && once rest

theorem once_cons {rest : List Argument} (h : .unassigned ∉ rest) (value : Text) :
    once (.option .attribute value :: rest) = once rest := by
  have h : rest.any (clashes (.option .attribute value)) = false := by
    rw [List.any_eq_false]
    intro a ha
    cases a with
    | option d _ => cases d <;> simp [clashes]
    | flag _ _ => simp [clashes]
    | unassigned => exact absurd ha h
  simp [once, h]

/-! ## The command -/

def valuesOf (c : Choice) (args : List Argument) : List Text :=
  args.filterMap fun a =>
    match a with
    | .option d value => if d = c then some value else none
    | .flag _ _ | .unassigned => none

/-- Whether a flag is on; a word in the environment that is neither yes nor no is refused. -/
def isSet? (environment : Text → Option Text) (f : Flag) (args : List Argument) : Option Bool :=
  if args.contains (.flag f true) then some true
  else if args.contains (.flag f false) then some false
  else ((environment f.variable).map word?).getD (some false)

/-- The command with these arguments, in an environment. -/
def command? (environment : Text → Option Text) (args : List Argument) : Option Command := do
  let one (c : Choice) : Option Text := (valuesOf c args).head? <|> environment c.variable
  let assignments :=
    match valuesOf .attribute args with
    | [] =>
        if args.contains .unassigned then []
        else Text.words ((environment Choice.attribute.variable).getD [])
    | given => given
  let clean ← isSet? environment .clean args
  let verbose ← isSet? environment .verbose args
  return {
    choices :=
      { file := (one .config).map Path.ofText
        source := (one .source).map Path.ofText
        workingDir := (one .workingDir).map Path.ofText
        encoding := one .encoding
        assignments }
    clean
    verbose }

/-- Reads the arguments of the program. -/
def read? (environment : Text → Option Text) : List Text → Option Command
  | [] => none
  | name :: rest =>
      if name = commandName then do
        let args ← ofTexts? rest
        if once args then command? environment args else none
      else none

end Arguments

end Folio
