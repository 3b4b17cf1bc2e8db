import Folio.Proofs.Pattern

/-!
# The references in a line are found in one pass

A line is searched for references from left to right, and the search goes on behind each one. At
every position the search backtracks. Here it is shown that all this is one pass over the
characters.

**Where a reference begins (`Grammar.Begins`).** The opening token comes first, with no further
colon behind it if it is guarded; then the path, which is the longest run of characters outside of
the token behind it; then the further text, which is the longest run of characters outside of the
closing token. The line that sets the directory of images has white space and a word in place of
this, and the rest of the line. No text begins with references of two kinds
(`Reference.eq_of_begins`): only one opening token is the beginning of another, and that one is
guarded.

**The pass (`Reference.scan`).** It takes whatever begins at a position, and goes on behind it. What
it finds is all there is to find (`Reference.Finds`): a position is passed over if nothing begins
there (`Finds.skip`) or if it is inside of a match (`Finds.hit`).

Main result: `Reference.spans_eq_scan`.
-/

namespace Folio

/-! ## Where a reference begins -/

/-- The text begins with a reference by three tokens, and `rest` is behind it. The opening token
comes first, and no colon behind it if it is guarded. The path is the longest run of characters that
are not in the token which comes behind it, and so is the further text. -/
structure Tokens.Begins (t : Tokens) (s : Text) (m : Match) (rest : Text) : Prop where
  opening : m.opening = t.start
  parts : ∃ u v, s = t.start ++ u ∧ (t.guarded = true → u.head? ≠ some ':') ∧
    LongestRun (· ∉ t.refEnd) u m.path (t.refEnd ++ v) ∧
    LongestRun (· ∉ t.close) v m.trailing (t.close ++ rest)

/-- The text begins with the line that sets the directory of images, and `rest` is behind it. The
opening token comes first, then white space, if there is any, and the longest run of other
characters, which is not empty. No line feed comes behind, unless as the very last character. -/
structure ImagesDirectoryBegins (s : Text) (m : Match) (rest : Text) : Prop where
  opening : m.opening = imagesDirectoryToken
  parts : ∃ u v blanks word, s = imagesDirectoryToken ++ u ∧
    LongestRun (isBlank · = true) u blanks v ∧
    LongestRun (isBlank · = false) v word (m.trailing ++ rest) ∧ word ≠ [] ∧
    m.path = blanks ++ word ∧ '\n' ∉ m.trailing ∧ (rest = [] ∨ rest = ['\n'])

/-- The text begins with a reference of this form, and `rest` is behind it. -/
def Grammar.Begins : Grammar → Text → Match → Text → Prop
  | imagesDirectory => ImagesDirectoryBegins
  | tokens t => t.Begins

namespace Tokens

variable {t : Tokens}

theorem longestRun_outside_iff {token : Text} (ht : token ≠ []) {s run rest : Text} :
    LongestRun (outside token · = true) s run rest ↔ LongestRun (· ∉ token) s run rest := by
  have hclass : (fun c => outside token c = true) = fun c => c ∉ token :=
    funext fun _ => propext (outside_eq_true_iff ht)
  rw [hclass]

theorem take?_partsPattern_iff (ht : t.Solid) {u rest : Text} {m : Match} :
    t.partsPattern.take? u = some (m, rest) ↔
      m.opening = [] ∧ ∃ v, LongestRun (· ∉ t.refEnd) u m.path (t.refEnd ++ v) ∧
        LongestRun (· ∉ t.close) v m.trailing (t.close ++ rest) := by
  simp only [partsPattern, Pattern.take?_cons_iff, Pattern.take?_nil_iff, Item.take?_run_iff,
    Item.take?_token_iff, longestRun_outside_iff ht.refEnd, longestRun_outside_iff ht.close]
  constructor
  · rintro ⟨path, _, _, hpath, ⟨_, v, _, ⟨rfl, rfl⟩, ⟨trailing, _, _, htrailing,
      ⟨_, _, _, ⟨rfl, rfl⟩, ⟨rfl, rfl⟩, rfl⟩, rfl⟩, rfl⟩, rfl⟩
    simp only [Match.put, List.append_nil]
    exact ⟨trivial, v, hpath, htrailing⟩
  · obtain ⟨opening, path, trailing⟩ := m
    rintro ⟨rfl, v, hpath, htrailing⟩
    refine ⟨path, _, _, hpath, ⟨_, v, _, ⟨rfl, rfl⟩, ⟨trailing, _, _, htrailing,
      ⟨_, rest, _, ⟨rfl, rfl⟩, ⟨rfl, rfl⟩, rfl⟩, rfl⟩, rfl⟩, ?_⟩
    simp [Match.put]

theorem take?_guard_iff {u rest : Text} {m : Match} :
    Pattern.take? ((if t.guarded then [(.unnamed, .notBefore ':')] else []) ++ t.partsPattern) u =
        some (m, rest) ↔
      (t.guarded = true → u.head? ≠ some ':') ∧ t.partsPattern.take? u = some (m, rest) := by
  by_cases hguard : t.guarded = true
  · rw [if_pos hguard, List.singleton_append, Pattern.take?_cons_iff]
    simp only [Item.take?_notBefore_iff]
    constructor
    · rintro ⟨_, _, _, ⟨-, rfl, hcolon⟩, hparts, rfl⟩
      exact ⟨fun _ => hcolon, hparts⟩
    · rintro ⟨hcolon, hparts⟩
      exact ⟨[], u, m, ⟨rfl, rfl, hcolon hguard⟩, hparts, rfl⟩
  · rw [if_neg hguard, List.nil_append]
    exact ⟨fun hparts => ⟨fun h => absurd h hguard, hparts⟩, fun h => h.2⟩

theorem take?_pattern_iff (ht : t.Solid) {s rest : Text} {m : Match} :
    t.pattern.take? s = some (m, rest) ↔ t.Begins s m rest := by
  rw [pattern, Pattern.take?_cons_iff]
  simp only [Item.take?_token_iff, take?_guard_iff, take?_partsPattern_iff ht]
  constructor
  · rintro ⟨_, u, m', ⟨rfl, hs⟩, ⟨hguard, hopening, v, hpath, htrailing⟩, rfl⟩
    exact ⟨by simp [Match.put, hopening], u, v, hs, hguard, hpath, htrailing⟩
  · obtain ⟨opening, path, trailing⟩ := m
    rintro ⟨rfl, u, v, hs, hguard, hpath, htrailing⟩
    refine ⟨t.start, u, ⟨[], path, trailing⟩, ⟨rfl, hs⟩, ⟨hguard, rfl, v, hpath, htrailing⟩, ?_⟩
    simp [Match.put]

end Tokens

/-- What is left of a line is a run that ends where the line does. -/
theorem longestRun_line_iff {s run rest : Text} (hend : rest = [] ∨ rest = ['\n']) :
    LongestRun (fun c => (c != '\n') = true) s run rest ↔ s = run ++ rest ∧ '\n' ∉ run := by
  constructor
  · rintro ⟨hcut, hinside, -⟩
    exact ⟨hcut, fun hmem => absurd (hinside _ hmem) (by decide)⟩
  · rintro ⟨hcut, hline⟩
    refine ⟨hcut, fun c hc => ?_, by rcases hend with rfl | rfl <;> simp⟩
    rw [bne_iff_ne]
    rintro rfl
    exact hline hc

theorem take?_imagesDirectoryPattern_iff {s rest : Text} {m : Match} :
    imagesDirectoryPattern.take? s = some (m, rest) ↔ ImagesDirectoryBegins s m rest := by
  have hword : (fun c => (!isBlank c) = true) = fun c => isBlank c = false := by simp
  simp only [imagesDirectoryPattern, Pattern.take?_cons_iff, Pattern.take?_nil_iff,
    Item.take?_run_iff, Item.take?_run₁_iff, Item.take?_token_iff, Item.take?_lineEnd_iff, hword]
  constructor
  · rintro ⟨_, u, _, ⟨rfl, hs⟩, ⟨blanks, v, _, hblanks, ⟨word, w, _, ⟨hrun, hne⟩,
      ⟨trailing, _, _, hline, ⟨_, _, _, ⟨rfl, rfl, hend⟩, ⟨rfl, rfl⟩, rfl⟩, rfl⟩, rfl⟩, rfl⟩, rfl⟩
    obtain ⟨rfl, hplain⟩ := (longestRun_line_iff hend).1 hline
    simp only [Match.put, List.append_nil]
    exact ⟨rfl, u, v, blanks, word, hs, hblanks, by simpa using hrun, hne, rfl,
      by simpa using hplain, hend⟩
  · obtain ⟨opening, path, trailing⟩ := m
    rintro ⟨rfl, u, v, blanks, word, hs, hblanks, hrun, hne, rfl, hplain, hend⟩
    have hline := (longestRun_line_iff hend).2 ⟨rfl, hplain⟩
    refine ⟨_, u, _, ⟨rfl, hs⟩, ⟨blanks, v, _, hblanks, ⟨word, _, _, ⟨hrun, hne⟩,
      ⟨trailing, _, _, hline, ⟨_, _, _, ⟨rfl, rfl, hend⟩, ⟨rfl, rfl⟩, rfl⟩, rfl⟩, rfl⟩, rfl⟩, ?_⟩
    simp [Match.put]

namespace Grammar

variable {g : Grammar}

theorem take?_pattern_iff (hg : g.Solid) {s rest : Text} {m : Match} :
    g.pattern.take? s = some (m, rest) ↔ g.Begins s m rest := by
  cases g with
  | imagesDirectory => exact take?_imagesDirectoryPattern_iff
  | tokens t => exact Tokens.take?_pattern_iff hg

/-- The opening token, as it is looked for. -/
def opening : Grammar → Text
  | imagesDirectory => imagesDirectoryToken
  | tokens t => t.start

theorem Begins.opening_eq {s rest : Text} {m : Match} (h : g.Begins s m rest) :
    m.opening = g.opening := by
  cases g with
  | imagesDirectory => exact ImagesDirectoryBegins.opening h
  | tokens t => exact Tokens.Begins.opening h

theorem Begins.eq_append {s rest : Text} {m : Match} (h : g.Begins s m rest) :
    s = g.textOf m ++ rest := by
  cases g with
  | imagesDirectory =>
      obtain ⟨hopening, u, v, blanks, word, rfl, hblanks, hrun, -, hpath, -, -⟩ := h
      simp [textOf, Tokens.write, toTokens, hopening, hpath, hblanks.cut, hrun.cut]
  | tokens t =>
      obtain ⟨hopening, u, v, rfl, -, hpath, htrailing⟩ := h
      simp [textOf, Tokens.write, toTokens, hopening, hpath.cut, htrailing.cut]

theorem Begins.opening_prefix {s rest : Text} {m : Match} (h : g.Begins s m rest) :
    g.opening <+: s := by
  rw [h.eq_append, textOf, Tokens.write, h.opening_eq]
  simp only [List.append_assoc]
  exact List.prefix_append ..

end Grammar

/-! ## Two references at one position -/

namespace Reference

variable {r r' : Reference} {s rest rest' : Text} {m m' : Match}

/-- One opening token begins with another only where an image in the text might be one in a block.
-/
theorem eq_or_image_of_prefix (h : r.grammar.opening <+: r'.grammar.opening) :
    r = r' ∨ r = inlineImage ∧ r' = imageBlock := by
  revert h
  cases r <;> cases r' <;> decide

/-- The guard keeps an image in the text from being one in a block. -/
theorem not_begins_imageBlock (h : inlineImage.grammar.Begins s m rest) :
    ¬ imageBlock.grammar.Begins s m' rest' := by
  intro h'
  obtain ⟨-, u, -, rfl, hguard, -, -⟩ := h
  obtain ⟨-, u', -, hs, -, -, -⟩ := h'
  have hu : u = ':' :: u' := by simpa using hs
  exact hguard (by decide) (by rw [hu]; rfl)

theorem eq_of_begins (h : r.grammar.Begins s m rest) (h' : r'.grammar.Begins s m' rest') :
    r = r' := by
  rcases List.prefix_or_prefix_of_prefix h.opening_prefix h'.opening_prefix with hle | hle
  · rcases eq_or_image_of_prefix hle with heq | ⟨rfl, rfl⟩
    · exact heq
    · exact absurd h' (not_begins_imageBlock h)
  · rcases eq_or_image_of_prefix hle with heq | ⟨rfl, rfl⟩
    · exact heq.symm
    · exact absurd h (not_begins_imageBlock h')

/-! ## One pass over a line -/

/-- What begins here with a reference of this kind, in a single pass: the match, and what is behind
it. -/
def takeHere? (r : Reference) (first : Bool) (s : Text) : Option (Match × Text) :=
  if first || r.grammar.toTokens.inline then r.grammar.pattern.take? s else none

theorem takeHere?_eq_some_iff {first : Bool} :
    r.takeHere? first s = some (m, rest) ↔
      (first = true ∨ r.grammar.toTokens.inline = true) ∧ r.grammar.Begins s m rest := by
  rw [takeHere?, ← Bool.or_eq_true]
  split
  · next hmay => rw [Grammar.take?_pattern_iff r.grammar_solid, and_iff_right hmay]
  · next hmay => exact ⟨fun h => absurd h (by simp), fun h => absurd h.1 hmay⟩

theorem opening_ne_nil (r : Reference) : r.grammar.opening ≠ [] := by
  cases r <;> decide

theorem eq_append_of_takeHere? {first : Bool} (h : r.takeHere? first s = some (m, rest)) :
    s = r.grammar.textOf m ++ rest ∧ r.grammar.textOf m ≠ [] := by
  obtain ⟨-, hbegins⟩ := takeHere?_eq_some_iff.1 h
  refine ⟨hbegins.eq_append, ?_⟩
  rw [Grammar.textOf, Tokens.write, hbegins.opening_eq]
  simp [r.opening_ne_nil]

theorem length_lt_of_takeHere? {first : Bool} (h : r.takeHere? first s = some (m, rest)) :
    rest.length < s.length := by
  obtain ⟨hs, hne⟩ := eq_append_of_takeHere? h
  have hpos := List.length_pos_iff.2 hne
  rw [hs, List.length_append]
  omega

/-- The matches in the rest of a line that begins at `n`: where one is found, the pass goes on
behind it, and else at the next character. -/
def scanFrom (r : Reference) (first : Bool) (n : Nat) : Text → List (Nat × Nat × Match)
  | [] => []
  | c :: s =>
      match h : r.takeHere? first (c :: s) with
      | none => scanFrom r false (n + 1) s
      | some (m, rest) =>
          let e := n + ((c :: s).length - rest.length)
          (n, e, m) :: scanFrom r false e rest
termination_by s => s.length
decreasing_by
  · exact Nat.lt_succ_self _
  · exact length_lt_of_takeHere? h

/-- The matches in a line, each with the places where it begins and ends. -/
def scan (r : Reference) (line : Text) : List (Nat × Nat × Match) := r.scanFrom true 0 line

/-- The match at a position of a line, as a search with backtracking finds it there, and what is
behind it. References that are not inline are found at the start of the line only. -/
def matchAt? (r : Reference) (line : Text) (i : Nat) : Option (Match × Text) :=
  if i = 0 ∨ r.grammar.toTokens.inline = true then r.grammar.pattern.search? (line.drop i) else none

theorem search?_eq_take? (r : Reference) (s : Text) :
    r.grammar.pattern.search? s = r.grammar.pattern.take? s :=
  Pattern.search?_eq_take? (Grammar.settled_pattern r.grammar_solid) s

theorem matchHere?_eq (r : Reference) (first : Bool) (s : Text) :
    r.grammar.matchHere? first s = (r.takeHere? first s).map Prod.fst := by
  rw [Grammar.matchHere?, takeHere?]
  split
  · rw [Grammar.match?_eq_search?, search?_eq_take?]
  · rfl

theorem matchAt?_eq (r : Reference) (line : Text) (i : Nat) :
    r.matchAt? line i = r.takeHere? (i == 0) (line.drop i) := by
  rw [matchAt?, takeHere?, search?_eq_take?]
  simp only [Bool.or_eq_true, beq_iff_eq]

theorem spansFrom_eq_scanFrom (r : Reference) (first : Bool) (n : Nat) (s : Text) :
    r.grammar.spansFrom n (r.grammar.piecesFrom first 0 s) = r.scanFrom first n s := by
  fun_induction r.scanFrom first n s with
  | case1 first n =>
      rw [Grammar.piecesFrom, Grammar.matchHere?_nil r.grammar_solid]
      rfl
  | case2 first n c s hnone ih =>
      have hhere : r.grammar.matchHere? first (c :: s) = none := by
        rw [matchHere?_eq, hnone]
        rfl
      rw [Grammar.piecesFrom_cons_of_none hhere, Grammar.spansFrom, ih]
  | case3 first n c s m rest hsome e ih =>
      obtain ⟨hs, -⟩ := eq_append_of_takeHere? hsome
      have hhere : r.grammar.matchHere? first (r.grammar.textOf m ++ rest) = some m := by
        rw [← hs, matchHere?_eq, hsome]
        rfl
      have hend : n + (r.grammar.textOf m).length = e := by
        have hlength := congrArg List.length hs
        rw [List.length_append] at hlength
        omega
      rw [hs, Grammar.piecesFrom_append_of_some r.grammar_solid hhere, Grammar.spansFrom, hend, ih]

/-! ## Nothing is missed -/

/-- These are the matches in a line that begin at `n` or behind it, from left to right: each is one
at its beginning and ends where it says, none begins before the end of an earlier one, and wherever
a match might begin, there is one. -/
structure Finds (r : Reference) (line : Text) (n : Nat) (found : List (Nat × Nat × Match)) :
    Prop where
  from_le : ∀ x ∈ found, n ≤ x.1
  sound : ∀ x ∈ found, r.matchAt? line x.1 = some (x.2.2, line.drop x.2.1)
  ordered : found.Pairwise fun x y => x.2.1 ≤ y.1
  complete : ∀ i, n ≤ i → (r.matchAt? line i).isSome = true → ∃ x ∈ found, x.1 ≤ i ∧ i < x.2.1

variable {line : Text} {n e : Nat} {found : List (Nat × Nat × Match)}

theorem takeHere?_nil (r : Reference) (first : Bool) : r.takeHere? first [] = none := by
  rw [← Option.not_isSome_iff_eq_none]
  intro hsome
  obtain ⟨⟨m, rest⟩, h⟩ := Option.isSome_iff_exists.1 hsome
  exact absurd (length_lt_of_takeHere? h) (by simp)

namespace Finds

theorem nil (hend : line.length ≤ n) : r.Finds line n [] where
  from_le _ hx := absurd hx List.not_mem_nil
  sound _ hx := absurd hx List.not_mem_nil
  ordered := .nil
  complete i hi hsome := by
    rw [matchAt?_eq, List.drop_eq_nil_of_le (Nat.le_trans hend hi), takeHere?_nil] at hsome
    exact absurd hsome (by simp)

/-- A position at which nothing is found is passed over. -/
theorem skip (hnone : r.matchAt? line n = none) (h : r.Finds line (n + 1) found) :
    r.Finds line n found where
  from_le x hx := Nat.le_of_succ_le (h.from_le x hx)
  sound := h.sound
  ordered := h.ordered
  complete i hi hsome := by
    have hne : n ≠ i := by
      rintro rfl
      rw [hnone] at hsome
      exact absurd hsome (by simp)
    exact h.complete i (by omega) hsome

/-- Behind a match, it goes on at its end. -/
theorem hit (hmatch : r.matchAt? line n = some (m, line.drop e)) (hlt : n < e)
    (h : r.Finds line e found) : r.Finds line n ((n, e, m) :: found) where
  from_le := by
    rw [List.forall_mem_cons]
    exact ⟨Nat.le_refl n, fun x hx => Nat.le_trans (Nat.le_of_lt hlt) (h.from_le x hx)⟩
  sound := by
    rw [List.forall_mem_cons]
    exact ⟨hmatch, h.sound⟩
  ordered := List.pairwise_cons.2 ⟨h.from_le, h.ordered⟩
  complete i hi hsome := by
    by_cases hin : i < e
    · exact ⟨_, List.mem_cons_self, hi, hin⟩
    · obtain ⟨x, hx, hcovers⟩ := h.complete i (by omega) hsome
      exact ⟨x, List.mem_cons_of_mem _ hx, hcovers⟩

end Finds

theorem scanFrom_finds (r : Reference) (line : Text) (first : Bool) (n : Nat) (s : Text)
    (hfirst : first = (n == 0)) (hs : s = line.drop n) :
    r.Finds line n (r.scanFrom first n s) := by
  fun_induction r.scanFrom first n s with
  | case1 first n => exact .nil (List.drop_eq_nil_iff.1 hs.symm)
  | case2 first n c s hnone ih =>
      have hhere : r.matchAt? line n = none := by
        rw [matchAt?_eq, ← hs, ← hfirst, hnone]
      have hnext : s = line.drop (n + 1) := by
        rw [← List.drop_drop, ← hs]
        rfl
      exact .skip hhere (ih (by simp) hnext)
  | case3 first n c s m rest hsome e ih =>
      have hlt := length_lt_of_takeHere? hsome
      obtain ⟨hcut, -⟩ := eq_append_of_takeHere? hsome
      have hrest : rest = line.drop e := by
        have hlength := congrArg List.length hcut
        rw [List.length_append] at hlength
        have he : e = n + (r.grammar.textOf m).length := by omega
        rw [he, ← List.drop_drop, ← hs, hcut, List.drop_left]
      have hhere : r.matchAt? line n = some (m, line.drop e) := by
        rw [matchAt?_eq, ← hs, ← hfirst, hsome, hrest]
      exact .hit hhere (by omega) (ih (by simp; omega) hrest)

/-- What a search finds at a position is told by the text there. -/
theorem matchAt?_eq_some_iff {i : Nat} :
    r.matchAt? line i = some (m, rest) ↔
      (i = 0 ∨ r.grammar.toTokens.inline = true) ∧ r.grammar.Begins (line.drop i) m rest := by
  rw [matchAt?_eq, takeHere?_eq_some_iff, beq_iff_eq]

theorem eq_of_matchAt? {i : Nat} (h : (r.matchAt? line i).isSome = true)
    (h' : (r'.matchAt? line i).isSome = true) : r = r' := by
  obtain ⟨⟨m, rest⟩, hm⟩ := Option.isSome_iff_exists.1 h
  obtain ⟨⟨m', rest'⟩, hm'⟩ := Option.isSome_iff_exists.1 h'
  exact eq_of_begins (matchAt?_eq_some_iff.1 hm).2 (matchAt?_eq_some_iff.1 hm').2

/-- **The references in a line are found in one pass** from left to right, in which no run gives
anything back, and which goes on behind each match. What a search with backtracking finds at a
position is told by the text there: tokens, and between them runs that are as long as possible.
Wherever it finds something, there is one of the matches, and at no position it finds references of
two kinds. -/
theorem spans_eq_scan (line : Text) :
    (∀ r : Reference, r.grammar.spans line = r.scan line ∧
      r.Finds line 0 (r.grammar.spans line)) ∧
    (∀ (r : Reference) s, r.grammar.match? s = (r.grammar.pattern.search? s).map Prod.fst ∧
      r.grammar.pattern.search? s = r.grammar.pattern.take? s) ∧
    (∀ (r : Reference) i m rest, r.matchAt? line i = some (m, rest) ↔
      (i = 0 ∨ r.grammar.toTokens.inline = true) ∧ r.grammar.Begins (line.drop i) m rest) ∧
    ∀ (r r' : Reference) i, (r.matchAt? line i).isSome = true →
      (r'.matchAt? line i).isSome = true → r = r' := by
  have hscan : ∀ r : Reference, r.grammar.spans line = r.scan line := fun r =>
    r.spansFrom_eq_scanFrom true 0 line
  refine ⟨fun r => ⟨hscan r, ?_⟩, fun r s => ⟨r.grammar.match?_eq_search? s, r.search?_eq_take? s⟩,
    fun r i m rest => matchAt?_eq_some_iff, fun r r' i => eq_of_matchAt?⟩
  rw [hscan r]
  exact r.scanFrom_finds line true 0 line rfl rfl

/-- The image in a block is not found as one in the text. -/
example : inlineImage.grammar.spans "image::a[] image:b[c]".toList =
    [(11, 21, ⟨"image:".toList, "b".toList, "c".toList⟩)] := by decide

end Reference

end Folio
