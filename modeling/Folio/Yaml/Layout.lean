import Folio.Yaml.Input
import Folio.Yaml.Token

/-!
# The layout of a document

Indentation and line ends carry meaning: a list or a mapping that is not in brackets begins where
its first entry begins, and ends where something stands further left. The layout of a document turns
this into tokens, so that what follows sees brackets everywhere.

**A key shows itself late.** Whether a scalar is a key is known at the colon after it, which may be
far away. So where a key may stand, the layout remembers the place as a `Candidate`, and at a colon
the token of the key, and perhaps the beginning of a mapping, is put in where the candidate began. A
candidate lapses at the end of its line and after 1024 characters; if only a key may stand there,
the document is refused.

**Tokens are passed on as soon as they are settled**: those from the first candidate on wait. With
each token goes the version of the language that is known when it is passed on, which the line after
it may have given. What cannot be read is a fault only for those who get there, so the tokens in
front of a fault are passed on as well.

* `Layout.next` reads one token.
* `Layout.ofInput` reads all tokens of an input.
-/

namespace Folio

namespace Yaml

/-- A place at which a key may have begun, with the number of tokens in front of it. It is required
if only a key may stand there. -/
structure Candidate where
  place : Place
  count : Nat
  required : Bool

/-- An open bracket, with the candidate of what is around it. -/
structure Bracket where
  ofMap : Bool
  around : Option Candidate

/-- A token with the version of the language that is known when it is passed on. -/
structure Lexeme where
  token : Token
  version : Version

/-- What comes after the last token: nothing, if the document, which is of this version, is read to
its end, or something that is no token. -/
inductive Ending where
  | finished (v : Version)
  | fault (e : Error)

structure Tokens where
  lexemes : List Lexeme
  ending : Ending

/-- The state of reading the tokens of a document. Tokens that have been passed on are `settled`,
those that wait stand in the `queue`, both with the last one first. The columns of the open lists
and mappings that are marked by indentation, and the open brackets, come innermost first. The
candidate is that of the innermost brackets, or of the text outside brackets. -/
structure Layout where
  version : Version
  rest : Source
  last : Place
  settled : List Lexeme
  queue : List Token
  count : Nat
  columns : List Nat
  candidate : Option Candidate
  brackets : List Bracket
  keyAllowed : Bool

namespace Layout

/-- Nothing has been read of this source. -/
def start (s : Source) : Layout :=
  ⟨.second, s, s.placeAfter .start, [], [], 0, [], none, [], true⟩

/-- The place of the next character. -/
def here (l : Layout) : Place :=
  match l.rest with
  | s :: _ => s.toPlace
  | [] => l.last

def inBrackets (l : Layout) : Bool := !l.brackets.isEmpty

/-- The least column for what belongs to the innermost list or mapping marked by indentation. -/
def least (l : Layout) : Nat :=
  match l.columns with
  | [] => 0
  | c :: _ => c + 1

/-! ## Tokens and columns -/

def emit (t : Token) (l : Layout) : Layout :=
  { l with queue := t :: l.queue, count := l.count + 1 }

/-- Puts a token in after the first `count` tokens. -/
def emitAt (count : Nat) (t : Token) (l : Layout) : Layout :=
  let behind := l.count - count
  { l with
    queue := l.queue.take behind ++ t :: l.queue.drop behind
    count := l.count + 1 }

/-- Ends the lists and mappings for which the test on their column holds, from the innermost on. -/
def endWhile (p : Nat → Bool) (l : Layout) : Layout :=
  let ended := l.columns.takeWhile p
  { l with
    columns := l.columns.dropWhile p
    queue := ended.map (fun _ => Token.blockEnd) ++ l.queue
    count := l.count + ended.length }

/-- Ends what is marked by indentation and begins further right than this column; brackets are not
ended by indentation. -/
def endAt (column : Nat) (l : Layout) : Layout :=
  if l.inBrackets then l else l.endWhile fun c => decide (column < c)

/-- Ends all that is marked by indentation. -/
def endAll (l : Layout) : Layout := if l.inBrackets then l else l.endWhile fun _ => true

/-- Begins a list or a mapping at this column, if none has begun there. -/
def beginAt (column count : Nat) (t : Token) (l : Layout) : Layout :=
  if !l.inBrackets && decide (l.least ≤ column) then
    { l.emitAt count t with columns := column :: l.columns }
  else l

/-- Begins a list or a mapping here, if none has begun at this column. -/
def beginHere (column : Nat) (t : Token) (l : Layout) : Layout :=
  l.beginAt column l.count t

/-! ## Candidates -/

/-- Gives the innermost candidate up, unless only a key may stand there. -/
def forget (l : Layout) : Except Error Layout :=
  match l.candidate with
  | some k => if k.required then .error .malformed else .ok { l with candidate := none }
  | none => .ok l

/-- Remembers that a key may begin at this place. -/
def remember (p : Place) (l : Layout) : Except Error Layout := do
  if l.keyAllowed then
    let required := !l.inBrackets && l.columns.head? == some p.column
    let l ← l.forget
    return { l with candidate := some ⟨p, l.count, required⟩ }
  else return l

/-- Whether a candidate has lapsed at this place. -/
def lapsed (p : Place) (k : Candidate) : Bool :=
  decide (k.place.line < p.line) || decide (k.place.index + 1024 < p.index)

/-- A candidate that has not lapsed at this place; refused if it has, and only a key may stand
there. -/
def renew (p : Place) : Option Candidate → Except Error (Option Candidate)
  | none => .ok none
  | some k =>
      if !lapsed p k then .ok (some k) else if k.required then .error .malformed else .ok none

/-- Lets the candidates lapse at the next character. -/
def lapse (l : Layout) : Except Error Layout := do
  let candidate ← renew l.here l.candidate
  let brackets ← l.brackets.mapM fun b => do return { b with around := ← renew l.here b.around }
  return { l with candidate, brackets }

/-- The number of tokens that are read in front of all candidates. -/
def settledCount (l : Layout) : Nat :=
  (l.candidate :: l.brackets.map Bracket.around).foldl
    (fun n k => (k.map fun k => min n k.count).getD n) l.count

/-- Passes the tokens on that are in front of all candidates. -/
def settle (l : Layout) : Layout :=
  let waiting := l.count - l.settledCount
  { l with
    queue := l.queue.take waiting
    settled := (l.queue.drop waiting).map (⟨·, l.version⟩) ++ l.settled }

/-! ## Gaps -/

/-- The source at the next token, and whether a key may stand there. The first flag tells whether
there are open brackets, in which a tab is a gap, the second whether a comment is being skipped. -/
def skipGaps (inBrackets : Bool) : Bool → Bool → Source → Bool × Source
  | _, allowed, [] => (allowed, [])
  | comment, allowed, s :: rest =>
      if isBreak s.char then skipGaps inBrackets false (allowed || !inBrackets) rest
      else if comment || s.char == '#' then skipGaps inBrackets true allowed rest
      else if s.char == ' ' || (s.char == '\t' && inBrackets) then
        skipGaps inBrackets false allowed rest
      else (allowed, s :: rest)

def advance (l : Layout) : Layout :=
  let (keyAllowed, rest) := skipGaps l.inBrackets false l.keyAllowed l.rest
  { l with keyAllowed, rest }

/-! ## Single tokens -/

/-- Goes on at `rest`, where a key may stand or not. -/
def goOn (keyAllowed : Bool) (rest : Source) (l : Layout) : Layout := { l with keyAllowed, rest }

/-- A sign or a line that stands in front of a document or after one. -/
def outside (t : Token) (rest : Source) (l : Layout) : Except Error Layout := do
  return ((← l.endAll.forget).goOn false rest).emit t

/-- A directive. A version holds from here on. -/
def directive (rest : Source) (l : Layout) : Except Error Layout := do
  let l ← l.endAll.forget
  let (t, rest) ← Token.directive l.version rest
  let version :=
    match t with
    | .version v => v
    | _ => l.version
  return ({ l with version }.goOn false rest).emit t

/-- An opening bracket; the flag tells whether it opens a mapping. -/
def openBracket (ofMap : Bool) (s : Spot) (rest : Source) (l : Layout) : Except Error Layout := do
  let l ← l.remember s.toPlace
  let brackets := ⟨ofMap, l.candidate⟩ :: l.brackets
  return ({ l with candidate := none, brackets }.goOn true rest).emit
    (if ofMap then .openMap else .openList)

def closeBracket (t : Token) (rest : Source) (l : Layout) : Except Error Layout := do
  let l ← l.forget
  let l :=
    match l.brackets with
    | [] => l
    | b :: brackets => { l with candidate := b.around, brackets }
  return (l.goOn false rest).emit t

def comma (rest : Source) (l : Layout) : Except Error Layout := do
  return ((← l.forget).goOn true rest).emit .comma

/-- The sign in front of an item of a list. -/
def item (s : Spot) (rest : Source) (l : Layout) : Except Error Layout := do
  if !l.inBrackets && !l.keyAllowed then .error .malformed
  else return ((← (l.beginHere s.column .listStart).forget).goOn true rest).emit .item

/-- The sign in front of a key. -/
def key (s : Spot) (rest : Source) (l : Layout) : Except Error Layout := do
  if !l.inBrackets && !l.keyAllowed then .error .malformed
  else
    return ((← (l.beginHere s.column .mapStart).forget).goOn (!l.inBrackets) rest).emit .key

/-- Whether a colon with this rest behind it is one in front of a value. Outside brackets, and in a
list in brackets, nothing is attached to such a colon. In a mapping in brackets something may be,
unless such a colon is the last token that waits. -/
def isValue (rest : Source) (l : Layout) : Bool :=
  match l.brackets with
  | [] => rest.atGap
  | b :: _ =>
      l.version.isFirst || rest.atGap ||
        (b.ofMap && !(l.queue.head?.any fun t => t matches .value))

/-- The colon in front of a value. If there is a candidate, it is a key. -/
def value (s : Spot) (rest : Source) (l : Layout) : Except Error Layout :=
  match l.candidate with
  | some k =>
      let l := (l.emitAt k.count .key).beginAt k.place.column k.count .mapStart
      .ok (({ l with candidate := none }.goOn false rest).emit .value)
  | none =>
      if !l.inBrackets && !l.keyAllowed then .error .malformed
      else .ok (((l.beginHere s.column .mapStart).goOn (!l.inBrackets) rest).emit .value)

/-- A token that may be part of a key. -/
def word (t : Token) (s : Spot) (rest : Source) (l : Layout) : Except Error Layout := do
  return ((← l.remember s.toPlace).goOn false rest).emit t

/-- A block of lines, which is no key. -/
def block (folded : Bool) (rest : Source) (l : Layout) : Except Error Layout := do
  let l ← l.forget
  let (text, rest) ← wellFormed (Scalar.block? folded l.least rest)
  return (l.goOn true rest).emit (.scalar false text)

/-- The signs with which a plain scalar does not begin. -/
def indicators : List Char :=
  ['-', '?', ':', ',', '[', ']', '{', '}', '#', '&', '*', '!', '|', '>', '\x27', '"', '%', '@',
    '\u0060']

/-- Whether a plain scalar begins here: with a character that is no sign, with a hyphen, or with a
question mark or a colon, to which something is attached. In brackets a question mark does not begin
one, and in the first version a colon does not either. -/
def startsPlain (s : Spot) (rest : Source) (l : Layout) : Bool :=
  (!isGap s.char && !isBreak s.char && !indicators.contains s.char) ||
    (!rest.atGap &&
      (s.char == '-' || (s.char == ':' && (!l.inBrackets || !l.version.isFirst)) ||
        (s.char == '?' && !l.inBrackets)))

def plain (s : Spot) (rest : Source) (l : Layout) : Except Error Layout := do
  if l.startsPlain s rest then
    let l ← l.remember s.toPlace
    let p := Scalar.plain l.version l.inBrackets l.least (s :: rest)
    return (l.goOn p.lineEnds p.rest).emit (.scalar true p.text)
  else .error .malformed

/-! ## All tokens -/

/-- Reads the token that begins with a character. -/
def next (s : Spot) (rest : Source) (l : Layout) : Except Error Layout := do
  if s.column = 0 ∧ s.char = '%' then l.directive rest
  else if s.column = 0 ∧ Source.atTriple '-' (s :: rest) then
    l.outside .documentStart (rest.drop 2)
  else if s.column = 0 ∧ Source.atTriple '.' (s :: rest) then
    l.outside .documentEnd (rest.drop 2)
  else
    match s.char with
    | '[' => l.openBracket false s rest
    | '{' => l.openBracket true s rest
    | ']' => l.closeBracket .closeList rest
    | '}' => l.closeBracket .closeMap rest
    | ',' => l.comma rest
    | '*' => do
        let (name, rest) ← wellFormed (Token.name? rest)
        l.word (.alias name) s rest
    | '&' => do
        let (name, rest) ← wellFormed (Token.name? rest)
        l.word (.anchor name) s rest
    | '!' => do
        let (tag, rest) ← wellFormed (Tag.read? l.version (s :: rest))
        l.word (.tag tag) s rest
    | '\x27' => do
        let (text, rest) ← Scalar.single rest .none []
        l.word (.scalar false text) s rest
    | '"' => do
        let (text, rest) ← Scalar.double rest .none []
        l.word (.scalar false text) s rest
    | '-' => if rest.atGap then l.item s rest else l.plain s rest
    | '?' => if rest.atGap || l.inBrackets then l.key s rest else l.plain s rest
    | ':' => if l.isValue rest then l.value s rest else l.plain s rest
    | '|' => if l.inBrackets then .error .malformed else l.block false rest
    | '>' => if l.inBrackets then .error .malformed else l.block true rest
    | _ => l.plain s rest

/-- Reads the token that comes next, and lets the candidates lapse that it leaves behind. -/
def read (s : Spot) (rest : Source) (l : Layout) : Except Error Layout := do
  (← ((← l.lapse).endAt s.column).next s rest).lapse

/-- The tokens that have been passed on, with this ending. -/
def tokens (ending : Ending) (l : Layout) : Tokens := ⟨l.settled.reverse, ending⟩

/-- Ends the document, for which no token waits any more. -/
def finish (l : Layout) : Except Error Layout := do
  return { (← (← l.lapse).endAll.forget) with candidate := none, brackets := [] }.settle

/-- What reading a token gives if there may be a fault behind the source: it is met at the end of
the source. -/
def meet (fault : Option Error) (r : Except Error Layout) : Except Error Layout :=
  match fault, r with
  | some e, .error .unfinished => .error e
  | some e, .ok l => if l.rest.isEmpty then .error e else .ok l
  | _, r => r

/-- Reads to the end of the source, behind which there may be a fault. Each token takes a character
at least, so there are no more than characters; the first argument is that bound. -/
def run (fault : Option Error) : Nat → Layout → Tokens
  | 0, l => l.tokens (.fault .malformed)
  | n + 1, l =>
      let l := l.advance
      match l.rest, fault with
      | [], some e => l.tokens (.fault e)
      | [], none =>
          match l.finish with
          | .ok l => l.tokens (.finished l.version)
          | .error e => l.tokens (.fault e)
      | s :: rest, _ =>
          match meet fault (l.read s rest) with
          | .ok l => run fault n l.settle
          | .error e => l.tokens (.fault e)

def ofInput (i : Input) : Tokens :=
  let s := Source.ofText i.text
  run i.fault (s.length + 1) (start s)

end Layout

end Yaml

end Folio
