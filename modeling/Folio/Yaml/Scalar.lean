import Folio.Text.Half
import Folio.Yaml.Error
import Folio.Yaml.Source
import Folio.Yaml.Version

/-!
# Scalars

A scalar is a text that a document writes in one of five ways: plain, between single or double
quotes, or as a block of lines that are kept or folded. The readers of this module begin after the
sign that opens a scalar, and give its text with what is left of the source.

**Folding.** Where a line ends inside a scalar, a single line end stands for a space, and of several
line ends the first one counts for nothing. Spaces and tabs around a line end are dropped. A `Gap`
is what stands between two words in quotes, and `Gap.text` what it means.

**A plain scalar** is a row of words with `between` between them. It knows no tabs: one that comes
next ends the scalar.

* `Scalar.single` and `Scalar.double` read to the closing quote.
* `Scalar.plain` reads to the next sign that cannot belong to a plain scalar.
* `Scalar.block` reads the lines that are indented deeper than what is around them.

Main result: `length_word`, a word and what is left of the source are as long as the source.
-/

namespace Folio

namespace Yaml

/-! ## Gaps -/

/-- What stands between two words of a scalar: nothing, spaces and tabs of one line, or the first
line end and those that follow it. -/
inductive Gap where
  | none
  | blanks (s : Text)
  | breaks (first more : Text)

namespace Gap

/-- The gap followed by a space or a tab. -/
def addBlank (c : Char) : Gap → Gap
  | none => blanks [c]
  | blanks s => blanks (s ++ [c])
  | breaks first more => breaks first more

/-- The gap followed by a line end. -/
def addBreak (c : Char) : Gap → Gap
  | breaks first more => breaks first (more ++ lineEnd c)
  | _ => breaks (lineEnd c) []

def fold (first more : Text) : Text :=
  if first = ['\n'] then (if more = [] then [' '] else more) else first ++ more

def text : Gap → Text
  | none => []
  | blanks s => s
  | breaks first more => fold first more

/-- Puts the gap after a text whose characters are in reverse. -/
def onto (g : Gap) (acc : Text) : Text := g.text.reverse ++ acc

end Gap

namespace Scalar

/-! ## Quoted scalars -/

def singleQuote : Char := '\x27'

/-- Reads to the closing single quote; two of them stand for one. The last argument holds the
characters read so far, in reverse. -/
def single : Source → Gap → Text → Except Error (Text × Source)
  | [], _, _ => .error .unfinished
  | s :: rest, gap, acc =>
      if isGap s.char then single rest (gap.addBlank s.char) acc
      else if isBreak s.char then
        if Source.atMarker rest then .error .malformed else single rest (gap.addBreak s.char) acc
      else if s.char = singleQuote then
        match rest with
        | [] => .ok ((gap.onto acc).reverse, [])
        | q :: rest' =>
            if q.char = singleQuote then single rest' .none (singleQuote :: gap.onto acc)
            else .ok ((gap.onto acc).reverse, q :: rest')
      else single rest .none (s.char :: gap.onto acc)

/-- The character that a letter after a backslash stands for. -/
def escape? (c : Char) : Option Char :=
  if c = '0' then some '\x00'
  else if c = 'a' then some '\x07'
  else if c = 'b' then some '\x08'
  else if c = 't' ∨ c = '\t' then some '\t'
  else if c = 'n' then some '\n'
  else if c = 'v' then some '\x0b'
  else if c = 'f' then some '\x0c'
  else if c = 'r' then some '\r'
  else if c = 'e' then some '\x1b'
  else if c = ' ' ∨ c = '"' ∨ c = '/' ∨ c = '\\' then some c
  else if c = 'N' then some '\u0085'
  else if c = '_' then some '\u00a0'
  else if c = 'L' then some '\u2028'
  else if c = 'P' then some '\u2029'
  else none

/-- How many hexadecimal digits follow a letter after a backslash. -/
def digitCount? (c : Char) : Option Nat :=
  if c = 'x' then some 2 else if c = 'u' then some 4 else if c = 'U' then some 8 else none

/-- The number of a hexadecimal digit. -/
def hexDigit? (c : Char) : Option Nat :=
  if c.isDigit then some (c.toNat - '0'.toNat)
  else if 'a' ≤ c ∧ c ≤ 'f' then some (c.toNat - 'a'.toNat + 10)
  else if 'A' ≤ c ∧ c ≤ 'F' then some (c.toNat - 'A'.toNat + 10)
  else none

/-- The number that some hexadecimal digits write. -/
def hexNumber? (s : Text) : Option Nat :=
  s.foldl (fun n? c => do return 16 * (← n?) + (← hexDigit? c)) (some 0)

/-- The number above all code points. -/
def codeLimit : Nat := 0x110000

/-- The least number that has more than 31 bits. -/
def longCode : Nat := 0x80000000

/-- Reads a number of `n` hexadecimal digits, which is not above all code points. -/
def code (n : Nat) (s : Source) : Except Error (Nat × Source) :=
  match hexNumber? (Source.text (s.take n)) with
  | none => .error .malformed
  | some k =>
      if s.length < n then .error .unfinished
      else if longCode ≤ k then .error .outOfRange
      else if codeLimit ≤ k then .error .illWritten
      else .ok (k, s.drop n)

theorem length_code_le {n k : Nat} {s r : Source} (h : code n s = .ok (k, r)) :
    r.length ≤ s.length := by
  unfold code at h
  split at h
  · cases h
  · split at h
    · cases h
    · split at h
      · cases h
      · split at h
        · cases h
        · cases h
          simp only [List.length_drop]
          omega

/-- Reads a character that is written by the `n` hexadecimal digits of its code point. Half a pair
is read as such. -/
def character (n : Nat) (s : Source) : Except Error (Char × Source) :=
  (code n s).map fun (k, s) => (Half.ofCode k, s)

theorem length_character_le {n : Nat} {c : Char} {s r : Source} (h : character n s = .ok (c, r)) :
    r.length ≤ s.length := by
  unfold character at h
  cases hc : code n s with
  | error e => rw [hc] at h; cases h
  | ok k =>
      rw [hc] at h
      cases h
      exact length_code_le hc

/-- Reads to the closing double quote, with the escapes that begin with a backslash. A line end that
is escaped stands for nothing. -/
def double : Source → Gap → Text → Except Error (Text × Source)
  | [], _, _ => .error .unfinished
  | s :: rest, gap, acc =>
      if isGap s.char then double rest (gap.addBlank s.char) acc
      else if isBreak s.char then
        if Source.atMarker rest then .error .malformed else double rest (gap.addBreak s.char) acc
      else if s.char = '"' then .ok ((gap.onto acc).reverse, rest)
      else if s.char = '\\' then
        match rest with
        | [] => .error .unfinished
        | e :: rest' =>
            if isBreak e.char then
              if Source.atMarker rest' then .error .malformed
              else double rest' (.breaks [] []) (gap.onto acc)
            else
              match escape? e.char, digitCount? e.char with
              | some c, _ => double rest' .none (c :: gap.onto acc)
              | none, some n =>
                  match h : character n rest' with
                  | .ok (c, rest'') =>
                      have := length_character_le h
                      double rest'' .none (c :: gap.onto acc)
                  | .error e => .error e
              | none, none => .error .malformed
      else double rest .none (s.char :: gap.onto acc)
termination_by s => s.length
decreasing_by all_goals simp only [List.length_cons]; omega

/-! ## Plain scalars -/

/-- The signs of lists and mappings in brackets. -/
def brackets : List Char := [',', '[', ']', '{', '}']

/-- Whether a character may be part of a word of a plain scalar. A colon must have something
attached to it. -/
def isPart (v : Version) (inBrackets : Bool) (c : Char) (rest : Source) : Bool :=
  if c = ':' then !rest.atGap
  else if c = '?' then !v.isFirst || !inBrackets
  else !isGap c && !isBreak c && !(inBrackets && brackets.contains c)

/-- Reads a word of a plain scalar, which may be empty. -/
def word (v : Version) (inBrackets : Bool) : Source → Text × Source
  | [] => ([], [])
  | s :: rest =>
      if isPart v inBrackets s.char rest then
        (s.char :: (word v inBrackets rest).1, (word v inBrackets rest).2)
      else ([], s :: rest)

theorem length_word (v : Version) (inBrackets : Bool) (s : Source) :
    (word v inBrackets s).1.length + (word v inBrackets s).2.length = s.length := by
  induction s with
  | nil => rfl
  | cons a s ih =>
      rw [word]
      split
      · simp only [List.length_cons]; omega
      · simp

/-- What has been read of a plain scalar, whether a line ends in it or after it, and what is left.
-/
structure Piece where
  text : Text
  lineEnds : Bool
  rest : Source

/-- Reads the spaces and the line ends after a line end. There is no text if a sign follows that
begins or ends a document. -/
def moreBreaks : Source → Option Text × Source
  | [] => (some [], [])
  | s :: rest =>
      if s.char = ' ' then moreBreaks rest
      else if isBreak s.char then
        if Source.atMarker rest then (none, rest)
        else ((moreBreaks rest).1.map (lineEnd s.char ++ ·), (moreBreaks rest).2)
      else (some [], s :: rest)

theorem length_moreBreaks_le (s : Source) : (moreBreaks s).2.length ≤ s.length := by
  induction s with
  | nil => exact Nat.le_refl 0
  | cons a s ih =>
      rw [moreBreaks]
      split
      · exact Nat.le_succ_of_le ih
      · split
        · split
          · exact Nat.le_succ _
          · exact Nat.le_succ_of_le ih
        · exact Nat.le_refl _

/-- Reads what stands between two words of a plain scalar: spaces, or line ends with spaces around
them. Its text is empty if the scalar ends here. -/
def between (s : Source) : Piece :=
  match s.skip (· == ' ') with
  | [] => ⟨s.upTo (· == ' '), false, []⟩
  | b :: rest =>
      if isBreak b.char then
        if Source.atMarker rest then ⟨[], true, rest⟩
        else
          ⟨((moreBreaks rest).1.map (Gap.fold (lineEnd b.char))).getD [], true, (moreBreaks rest).2⟩
      else ⟨s.upTo (· == ' '), false, b :: rest⟩

theorem length_between_le (s : Source) : (between s).rest.length ≤ s.length := by
  have hs : (s.skip (· == ' ')).length ≤ s.length := (List.dropWhile_sublist _).length_le
  rw [between]
  split
  · exact Nat.zero_le _
  · rename_i b rest hb
    rw [hb, List.length_cons] at hs
    split
    · split
      · exact Nat.le_of_succ_le hs
      · exact Nat.le_trans (length_moreBreaks_le rest) (Nat.le_of_succ_le hs)
    · exact hs

/-- Whether a plain scalar cannot go on here: a comment begins, or what comes next stands too far
left. -/
def endsBefore (inBrackets : Bool) (least : Nat) (s : Source) : Bool :=
  s.atChar '#' || (!inBrackets && s.head?.any fun a => decide (a.column < least))

/-- Reads a plain scalar, whose lines begin at column `least` or further right unless it stands in
brackets. -/
def plain (v : Version) (inBrackets : Bool) (least : Nat) (s : Source) : Piece :=
  if (word v inBrackets s).1 = [] then ⟨[], false, s⟩
  else
    let gap := between (word v inBrackets s).2
    let here : Piece := ⟨(word v inBrackets s).1, gap.lineEnds, gap.rest⟩
    if gap.text = [] ∨ endsBefore inBrackets least gap.rest then here
    else
      let more := plain v inBrackets least gap.rest
      if more.text = [] then here
      else ⟨here.text ++ gap.text ++ more.text, more.lineEnds, more.rest⟩
termination_by s.length
decreasing_by
  rename_i h _
  have h1 := length_word v inBrackets s
  have h2 := length_between_le (word v inBrackets s).2
  have h3 : 0 < (word v inBrackets s).1.length := List.length_pos_iff.2 h
  omega

/-! ## Blocks -/

/-- What happens to the line ends at the end of a block: the first one stays, none stays, or all
stay. -/
inductive Chomp where
  | clip
  | strip
  | keep

/-- Reads the sign that says what happens to the line ends at the end. -/
def chomp? : Source → Option (Chomp × Source)
  | s :: rest =>
      if s.char = '+' then some (.keep, rest)
      else if s.char = '-' then some (.strip, rest)
      else none
  | [] => none

/-- Reads the digit that says how much deeper the lines of the block begin; zero if there is none. A
digit zero is refused. -/
def deeper? : Source → Option (Nat × Source)
  | s :: rest =>
      if s.char = '0' then none
      else if s.char.isDigit then some (s.char.toNat - '0'.toNat, rest)
      else some (0, s :: rest)
  | [] => some (0, [])

/-- Reads what stands between the sign that opens a block and the end of its line. -/
def header? (s : Source) : Option (Chomp × Nat × Source) :=
  match chomp? s with
  | some (k, s) => (deeper? s).map fun (n, s) => (k, n, s)
  | none =>
      (deeper? s).map fun (n, s) =>
        match chomp? s with
        | some (k, s) => (k, n, s)
        | none => (.clip, n, s)

/-- Reads the empty lines in front of a block and the indentation of its first line. The result
begins with the greatest indentation met; if the first empty line has spaces, none
may be greater. -/
def indentation? : Source → Option Nat → Nat → Text → Option (Nat × Text × Source)
  | [], first, deepest, breaks => if exceeds first deepest then none else some (deepest, breaks, [])
  | s :: rest, first, deepest, breaks =>
      if s.char = ' ' then indentation? rest first (max deepest (s.column + 1)) breaks
      else if isBreak s.char then
        indentation? rest (first.or (some s.column)) deepest (breaks ++ lineEnd s.char)
      else if exceeds first deepest then none
      else some (deepest, breaks, s :: rest)
where
  /-- Whether an indentation exceeds that of an empty line with spaces. -/
  exceeds (first : Option Nat) (deepest : Nat) : Bool :=
    first.any fun n => decide (0 < n) && decide (n < deepest)

/-- Reads the empty lines in front of a block whose lines begin at column `indent`, and the
indentation of its first line. -/
def emptyLines (indent : Nat) : Source → Text → Text × Source
  | [], breaks => (breaks, [])
  | s :: rest, breaks =>
      if s.column < indent ∧ s.char = ' ' then emptyLines indent rest breaks
      else if isBreak s.char then emptyLines indent rest (breaks ++ lineEnd s.char)
      else (breaks, s :: rest)

/-- Where the reading of a block is: inside a line, or after one, with the line end after it and
those of the empty lines that follow. The flag tells whether the line read last begins with a space
or a tab. Before the first line there is no such line end. -/
inductive Position where
  | inside (spaced : Bool)
  | between (spaced : Bool) (first more : Text)

/-- What stands between two lines of a block. -/
def joint (folded spaced : Bool) (first more : Text) : Text :=
  if folded && !spaced then Gap.fold first more else first ++ more

/-- The text of a block, the line end after its last line, those of the empty lines that follow, and
what is left. -/
structure Block where
  text : Text
  last : Text
  more : Text
  rest : Source

/-- Reads the lines of a block that begin at column `indent`. If they may begin at the first column,
a sign that begins or ends a document ends the block as well. -/
def content (folded atFirst : Bool) (indent : Nat) : Source → Position → Text → Block
  | [], .inside _, acc => ⟨acc.reverse, [], [], []⟩
  | [], .between _ first more, acc => ⟨acc.reverse, first, more, []⟩
  | s :: rest, .inside spaced, acc =>
      if isBreak s.char then
        content folded atFirst indent rest (.between spaced (lineEnd s.char) []) acc
      else content folded atFirst indent rest (.inside spaced) (s.char :: acc)
  | s :: rest, .between spaced first more, acc =>
      if s.column < indent ∧ s.char = ' ' then
        content folded atFirst indent rest (.between spaced first more) acc
      else if isBreak s.char then
        content folded atFirst indent rest (.between spaced first (more ++ lineEnd s.char)) acc
      else if atFirst && first != [] && s.column == 0 && Source.atMarker (s :: rest) then
        ⟨acc.reverse, first, more, s :: rest⟩
      else if s.column = indent then
        let between := joint folded (spaced || isGap s.char) first more
        content folded atFirst indent rest (.inside (isGap s.char))
          (s.char :: (between.reverse ++ acc))
      else ⟨acc.reverse, first, more, s :: rest⟩

/-- Reads a block. Its lines begin at column `least` or further right; without a digit in its
header, they begin where the first one does. -/
def block? (folded : Bool) (least : Nat) (s : Source) : Option (Text × Source) := do
  let (chomp, n, s) ← header? s
  if s.atSpace then
    let s ← s.nextLine?
    let (indent, breaks, s) ←
      if n = 0 then (indentation? s none 0 []).map fun (deepest, s) => (max deepest least, s)
      else some (max least 1 + n - 1, emptyLines (max least 1 + n - 1) s [])
    let b := content folded (n == 0 && least == 0) indent s (.between false [] breaks) []
    match chomp with
    | .strip => some (b.text, b.rest)
    | .clip => some (b.text ++ b.last, b.rest)
    | .keep => some (b.text ++ b.last ++ b.more, b.rest)
  else none

end Scalar

end Yaml

end Folio
