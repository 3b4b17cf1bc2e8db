import Folio.Text.Blank

/-!
# References in a line

A line refers to a file by an opening token, the path, a token that ends the path, further text, and
a closing token. The three tokens make a grammar; a grammar that is not inline matches only at the
start of a line. One more form, which sets the directory of images, has its own rule.

**Runs are as long as possible.** The path is a run of characters outside the token that ends it,
the further text a run outside the closing token. If that token is empty, the run may hold anything
but a line feed. A run that is too long for what has to follow is shortened until it fits.

* `Grammar.match?` matches at the start of a text.
* `Grammar.pieces` cuts a line into its matches and the characters between them.
* `Grammar.render` writes a reference.

Main result: `flatMap_pieceText_pieces`, the pieces of a line put together are the line.
-/

namespace Folio

/-! ## Runs -/

/-- The longest run at the start of a text, of characters that pass the test, after which `next`
succeeds; with what `next` gives there. -/
def greedy {α : Type} (inRun : Char → Bool) (next : Text → Option α) : Text → Option (Text × α)
  | [] => (next []).map fun a => ([], a)
  | c :: s =>
      match if inRun c then greedy inRun next s else none with
      | some (run, a) => some (c :: run, a)
      | none => (next (c :: s)).map fun a => ([], a)

/-- Whether a character may stand in a run that ends at a token. -/
def outside (token : Text) (c : Char) : Bool :=
  if token = [] then c != '\n' else !token.contains c

/-! ## Grammars -/

/-- The tokens of a reference: in front of the path, after it, and at the end. An inline reference
may stand anywhere in a line. -/
structure Tokens where
  start : Text
  refEnd : Text
  close : Text
  inline : Bool
deriving DecidableEq

/-- A form of reference: the line that sets the directory of images, or one with three tokens. -/
inductive Grammar where
  | imagesDirectory
  | tokens (t : Tokens)
deriving DecidableEq

/-- The opening token, the path with the white space around it, and the further text of a match. -/
structure Match where
  opening : Text
  path : Text
  trailing : Text
deriving DecidableEq

namespace Tokens

/-- Whether the opening token must not be followed by a further colon, so that an inline form is
not found in the block form that doubles it. -/
def guarded (t : Tokens) : Bool := t.inline && t.start.getLast? == some ':'

def write (t : Tokens) (opening path trailing : Text) : Text :=
  opening ++ path ++ t.refEnd ++ trailing ++ t.close

/-- What follows the opening token: the path and the further text. -/
def parts? (t : Tokens) (s : Text) : Option (Text × Text × Text) :=
  greedy (outside t.refEnd)
    (fun s => (Text.after? t.refEnd s).bind (greedy (outside t.close) (Text.after? t.close))) s

/-- The match at the start of a text. -/
def match? (t : Tokens) (s : Text) : Option Match :=
  match Text.after? t.start s with
  | none => none
  | some s =>
      if t.guarded && s.head? == some ':' then none
      else (t.parts? s).map fun r => ⟨t.start, r.1, r.2.1⟩

end Tokens

/-- The opening token of the line that sets the directory of images, as it is looked for. -/
def imagesDirectoryToken : Text := [':', 'i', 'm', 'a', 'g', 'e', 's', 'd', 'i', 'r', ':']

/-- The match of the line that sets the directory of images: white space and one word make the
path, the rest of the line is further text. -/
def imagesDirectoryMatch? (s : Text) : Option Match :=
  match Text.after? imagesDirectoryToken s with
  | none => none
  | some s =>
      let blanks := s.takeWhile isBlank
      let s := s.dropWhile isBlank
      let word := s.takeWhile fun c => !isBlank c
      let s := s.dropWhile fun c => !isBlank c
      let trailing := s.takeWhile (· != '\n')
      let s := s.dropWhile (· != '\n')
      if word = [] then none
      else if s = [] ∨ s = ['\n'] then some ⟨imagesDirectoryToken, blanks ++ word, trailing⟩
      else none

namespace Grammar

/-- The tokens with which a reference is written. -/
def toTokens : Grammar → Tokens
  | imagesDirectory => ⟨imagesDirectoryToken ++ [' '], [], [], false⟩
  | tokens t => t

/-- The match at the start of a text. -/
def match? : Grammar → Text → Option Match
  | imagesDirectory, s => imagesDirectoryMatch? s
  | tokens t, s => t.match? s

/-- The text of a reference with this path and further text. -/
def render (g : Grammar) (path trailing : Text) : Text :=
  g.toTokens.write g.toTokens.start path trailing

def textOf (g : Grammar) (m : Match) : Text := g.toTokens.write m.opening m.path m.trailing

/-! ## All matches of a line -/

/-- A part of a line: a character outside of all matches, or a match. -/
inductive Piece where
  | plain (c : Char)
  | hit (m : Match)
deriving DecidableEq

/-- The match at the start of the rest of a line, where `first` tells whether that is the start of
the line. -/
def matchHere? (g : Grammar) (first : Bool) (s : Text) : Option Match :=
  if first || g.toTokens.inline then g.match? s else none

/-- The pieces of the rest of a line; the second argument counts the characters still to be
passed over because they belong to the last match. -/
def piecesFrom (g : Grammar) (first : Bool) : Nat → Text → List Piece
  | skip + 1, _ :: s => piecesFrom g false skip s
  | _, [] =>
      match g.matchHere? first [] with
      | some m => [.hit m]
      | none => []
  | 0, c :: s =>
      match g.matchHere? first (c :: s) with
      | none => .plain c :: piecesFrom g false 0 s
      | some m =>
          match (g.textOf m).length with
          | 0 => .hit m :: .plain c :: piecesFrom g false 0 s
          | n + 1 => .hit m :: piecesFrom g false n s

/-- The pieces of a line: its matches, from left to right and without overlap, and the characters
between them. -/
def pieces (g : Grammar) (line : Text) : List Piece := g.piecesFrom true 0 line

def pieceText (g : Grammar) : Piece → Text
  | .plain c => [c]
  | .hit m => g.textOf m

/-- The matches among some pieces, each with the places where it begins and ends, if the first
piece begins at `n`. -/
def spansFrom (g : Grammar) : Nat → List Piece → List (Nat × Nat × Match)
  | _, [] => []
  | n, .plain _ :: ps => spansFrom g (n + 1) ps
  | n, .hit m :: ps =>
      let e := n + (g.textOf m).length
      (n, e, m) :: spansFrom g e ps

/-- The matches of a line, each with the places where it begins and ends. -/
def spans (g : Grammar) (line : Text) : List (Nat × Nat × Match) := g.spansFrom 0 (g.pieces line)

end Grammar

/-! ## Nothing is lost -/

theorem greedy_eq_some {α : Type} {inRun : Char → Bool} {next : Text → Option α} {s run : Text}
    {a : α} (h : greedy inRun next s = some (run, a)) :
    ∃ rest, s = run ++ rest ∧ (∀ c ∈ run, inRun c = true) ∧ next rest = some a := by
  induction s generalizing run a with
  | nil =>
      simp only [greedy, Option.map_eq_some_iff, Prod.mk.injEq] at h
      obtain ⟨b, hb, rfl, rfl⟩ := h
      exact ⟨[], rfl, by simp, hb⟩
  | cons c s ih =>
      rw [greedy] at h
      split at h
      · next r b hr =>
          split at hr
          · next hc =>
              simp only [Option.some.injEq, Prod.mk.injEq] at h
              obtain ⟨rfl, rfl⟩ := h
              obtain ⟨rest, rfl, hrun, hn⟩ := ih hr
              exact ⟨rest, rfl, List.forall_mem_cons.2 ⟨hc, hrun⟩, hn⟩
          · exact absurd hr (by simp)
      · simp only [Option.map_eq_some_iff, Prod.mk.injEq] at h
        obtain ⟨b, hb, rfl, rfl⟩ := h
        exact ⟨c :: s, rfl, by simp, hb⟩

theorem Tokens.match?_eq_some {t : Tokens} {s : Text} {m : Match} (h : t.match? s = some m) :
    m.opening = t.start ∧ ∃ rest, s = t.write m.opening m.path m.trailing ++ rest := by
  rw [Tokens.match?] at h
  split at h
  · exact absurd h (by simp)
  · next s' hs' =>
      split at h
      · exact absurd h (by simp)
      · obtain ⟨⟨path, trailing, rest⟩, hr, rfl⟩ := Option.map_eq_some_iff.1 h
        obtain ⟨u, hu, -, hn⟩ := greedy_eq_some hr
        obtain ⟨v, hv, hw⟩ := Option.bind_eq_some_iff.1 hn
        obtain ⟨w, hvw, -, hc⟩ := greedy_eq_some hw
        rw [Text.after?_eq_some_iff] at hs' hv hc
        exact ⟨rfl, rest, by simp [Tokens.write, hs', hu, hv, hvw, hc]⟩

theorem imagesDirectoryMatch?_eq_some {s : Text} {m : Match}
    (h : imagesDirectoryMatch? s = some m) :
    ∃ rest, s = m.opening ++ m.path ++ m.trailing ++ rest := by
  rw [imagesDirectoryMatch?] at h
  split at h
  · exact absurd h (by simp)
  · next s' hs' =>
      rw [Text.after?_eq_some_iff] at hs'
      subst hs'
      simp only at h
      split at h
      · exact absurd h (by simp)
      · split at h
        · obtain rfl := Option.some.inj h
          refine ⟨((s'.dropWhile isBlank).dropWhile fun c => !isBlank c).dropWhile (· != '\n'), ?_⟩
          simp only [List.append_assoc, List.takeWhile_append_dropWhile]
        · exact absurd h (by simp)

namespace Grammar

theorem match?_eq_some {g : Grammar} {s : Text} {m : Match} (h : g.match? s = some m) :
    ∃ rest, s = g.textOf m ++ rest := by
  cases g with
  | imagesDirectory =>
      obtain ⟨rest, hs⟩ := imagesDirectoryMatch?_eq_some h
      exact ⟨rest, by simpa [textOf, Tokens.write, toTokens] using hs⟩
  | tokens t => exact (Tokens.match?_eq_some h).2

theorem matchHere?_eq_some {g : Grammar} {first : Bool} {s : Text} {m : Match}
    (h : g.matchHere? first s = some m) : ∃ rest, s = g.textOf m ++ rest := by
  rw [matchHere?] at h
  split at h
  · exact match?_eq_some h
  · exact absurd h (by simp)

theorem flatMap_pieceText_piecesFrom (g : Grammar) (first : Bool) (skip : Nat) (s : Text) :
    (g.piecesFrom first skip s).flatMap g.pieceText = s.drop skip := by
  induction s generalizing first skip with
  | nil =>
      have hnil : ∀ b, (match g.matchHere? b [] with
          | some m => [Piece.hit m]
          | none => []).flatMap g.pieceText = [] := by
        intro b
        split
        · next m hm =>
            obtain ⟨rest, hr⟩ := matchHere?_eq_some hm
            have : g.textOf m = [] := (List.append_eq_nil_iff.1 hr.symm).1
            simp [pieceText, this]
        · rfl
      cases skip <;> simpa [piecesFrom] using hnil first
  | cons c s ih =>
      cases skip with
      | succ skip => simpa [piecesFrom] using ih false skip
      | zero =>
          rw [piecesFrom]
          split
          · simp [pieceText, ih]
          · next m hm =>
              obtain ⟨rest, hr⟩ := matchHere?_eq_some hm
              cases hl : g.textOf m with
              | nil => simp [pieceText, hl, ih]
              | cons d u =>
                  rw [hl] at hr
                  obtain ⟨rfl, hs⟩ := List.cons.inj hr
                  have hdrop : s.drop u.length = rest := by
                    rw [hs]
                    exact List.drop_left
                  simp only [List.length_cons, List.flatMap_cons, pieceText, hl, ih, hdrop]
                  exact hr.symm

theorem flatMap_pieceText_pieces (g : Grammar) (line : Text) :
    (g.pieces line).flatMap g.pieceText = line := by
  simp [pieces, flatMap_pieceText_piecesFrom]

end Grammar

/-! ## The references of a document -/

/-- The kinds of references that a document can hold. -/
inductive Reference where
  | imagesDirectory
  | inclusion
  | imageBlock
  | diagram
  | inlineImage
  | link
  | crossReference
deriving DecidableEq

namespace Reference

/-- All kinds, in the order in which they are looked for in a line. -/
def all : List Reference :=
  [imagesDirectory, inclusion, imageBlock, diagram, inlineImage, link, crossReference]

/-- The form of a kind of reference. -/
def grammar : Reference → Grammar
  | imagesDirectory => .imagesDirectory
  | inclusion => .tokens ⟨['i', 'n', 'c', 'l', 'u', 'd', 'e', ':', ':'], ['['], [']'], false⟩
  | imageBlock => .tokens ⟨['i', 'm', 'a', 'g', 'e', ':', ':'], ['['], [']'], false⟩
  | diagram => .tokens ⟨['p', 'l', 'a', 'n', 't', 'u', 'm', 'l', ':', ':'], ['['], [']'], false⟩
  | inlineImage => .tokens ⟨['i', 'm', 'a', 'g', 'e', ':'], ['['], [']'], true⟩
  | link => .tokens ⟨['l', 'i', 'n', 'k', ':'], ['['], [']'], true⟩
  | crossReference => .tokens ⟨['<', '<'], ['#', ','], ['>', '>'], true⟩

/-- The token in front of the path. -/
def start (r : Reference) : Text := r.grammar.toTokens.start

end Reference

end Folio
