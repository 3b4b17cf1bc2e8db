import Folio.Proofs.Scan

/-!
# Patterns and what they take off a text

The forms of references are patterns: tokens, characters that must not come next, runs of characters
of a class, and the end of the line. A search for a pattern **backtracks** (`Pattern.search?`): each
run is as long as possible, and whenever what comes behind it cannot be found, it gives back its
last character and what comes behind is looked for again.

`Pattern.take?` goes through a text once, from left to right. Each item takes its part without
looking at what comes behind it, and a run takes all there is.

**Giving back is of no use** if whatever can be found in front of a character of the run can also be
found behind it (`Unyielding`): when the longest run fails, every shorter one does. Then the search
is the single pass (`Pattern.search?_eq_take?`). This is so for the tokens of references, since a
run ends in front of a character that stands in the token behind it, and for the line that sets the
directory of images, where a word that gives back a character gives it to the rest of the line.
-/

namespace Folio

/-! ## Patterns -/

/-- An item of a pattern: just this text, no such character next, any number of characters that pass
the test, or at least one, and the end of a line, behind which no more than a line feed may come. -/
inductive Item where
  | token (text : Text)
  | notBefore (c : Char)
  | run (inRun : Char → Bool)
  | run₁ (inRun : Char → Bool)
  | lineEnd

/-- The part of a match that an item gives. -/
inductive Part where
  | opening
  | path
  | trailing
  | unnamed

/-- A match with some text in front of one of its parts. -/
def Match.put : Part → Text → Match → Match
  | .opening, t, m => { m with opening := t ++ m.opening }
  | .path, t, m => { m with path := t ++ m.path }
  | .trailing, t, m => { m with trailing := t ++ m.trailing }
  | .unnamed, _, m => m

/-- Some items, each with the part of a match that it gives. -/
abbrev Pattern := List (Part × Item)

/-- A run gives back characters in vain: where `next` succeeds in front of one of them, it succeeds
behind it. -/
def Unyielding {α : Type} (inRun : Char → Bool) (next : Text → Option α) : Prop :=
  ∀ c s, inRun c = true → (next (c :: s)).isSome = true → (next s).isSome = true

namespace Item

variable {α : Type}

/-- The first way to find the item at the start of a text so that `next` succeeds behind it: a run
is tried as long as possible, then shorter. -/
def search? (next : Text → Option α) : Item → Text → Option (Text × α)
  | token t, s => (Text.after? t s).bind fun s => (next s).map fun a => (t, a)
  | notBefore c, s => if s.head? = some c then none else (next s).map fun a => ([], a)
  | run inRun, s => greedy inRun next s
  | run₁ _, [] => none
  | run₁ inRun, c :: s =>
      if inRun c then (greedy inRun next s).map fun r => (c :: r.1, r.2) else none
  | lineEnd, s => if s = [] ∨ s = ['\n'] then (next s).map fun a => ([], a) else none

/-- What the item takes off a text, and what it leaves. -/
def take? : Item → Text → Option (Text × Text)
  | token t, s => (Text.after? t s).map fun s => (t, s)
  | notBefore c, s => if s.head? = some c then none else some ([], s)
  | run inRun, s => some (s.takeWhile inRun, s.dropWhile inRun)
  | run₁ inRun, s =>
      if s.takeWhile inRun = [] then none else some (s.takeWhile inRun, s.dropWhile inRun)
  | lineEnd, s => if s = [] ∨ s = ['\n'] then some ([], s) else none

/-- If the item is a run, it has no use for giving back characters. -/
def Settled (next : Text → Option α) : Item → Prop
  | run inRun | run₁ inRun => Unyielding inRun next
  | _ => True

end Item

/-! ## Runs -/

/-- The longest run of such characters at the start of a text, and what is behind it. -/
structure LongestRun (inRun : Char → Prop) (s run rest : Text) : Prop where
  cut : s = run ++ rest
  inside : ∀ c ∈ run, inRun c
  stops : ∀ c ∈ rest.head?, ¬ inRun c

theorem longestRun_iff {inRun : Char → Bool} {s run rest : Text} :
    LongestRun (inRun · = true) s run rest ↔
      s.takeWhile inRun = run ∧ s.dropWhile inRun = rest := by
  constructor
  · rintro ⟨rfl, hinside, hstops⟩
    exact takeWhile_append_of_stop inRun rest hinside (by simpa using hstops)
  · rintro ⟨rfl, rfl⟩
    refine ⟨List.takeWhile_append_dropWhile.symm, ?_, ?_⟩
    · exact fun c hc => List.all_eq_true.1 List.all_takeWhile c hc
    · exact fun c hc => by simp [head?_dropWhile_eq_false c hc]

theorem isSome_dropWhile {α : Type} {inRun : Char → Bool} {next : Text → Option α}
    (h : Unyielding inRun next) {s : Text} (hs : (next s).isSome = true) :
    (next (s.dropWhile inRun)).isSome = true := by
  induction s with
  | nil => exact hs
  | cons c s ih =>
      rw [List.dropWhile_cons]
      split
      · next hc => exact ih (h c s hc hs)
      · exact hs

/-- **The longest run or none.** -/
theorem greedy_eq_takeWhile {α : Type} {inRun : Char → Bool} {next : Text → Option α}
    (h : Unyielding inRun next) (s : Text) :
    greedy inRun next s =
      (next (s.dropWhile inRun)).map fun a => (s.takeWhile inRun, a) := by
  induction s with
  | nil => rfl
  | cons c s ih =>
      rw [greedy, List.takeWhile_cons, List.dropWhile_cons]
      by_cases hc : inRun c = true
      · rw [if_pos hc, if_pos hc, if_pos hc, ih]
        cases hlong : next (s.dropWhile inRun) with
        | some a => rfl
        | none =>
            -- the longest run fails, and so does the empty one
            have hshort : next (c :: s) = none := by
              rw [← Option.not_isSome_iff_eq_none]
              intro hsome
              have hdrop := isSome_dropWhile h (h c s hc hsome)
              rw [hlong] at hdrop
              exact absurd hdrop (by simp)
            simp [hshort]
      · rw [if_neg hc, if_neg hc, if_neg hc]

/-- What is done with a result does not change the search for it. -/
theorem greedy_map {α β : Type} (inRun : Char → Bool) (next : Text → Option α) (f : α → β)
    (s : Text) :
    greedy inRun (fun s => (next s).map f) s =
      (greedy inRun next s).map fun r => (r.1, f r.2) := by
  induction s with
  | nil => simp [greedy, Function.comp_def]
  | cons c s ih =>
      rw [greedy, greedy]
      by_cases hc : inRun c = true
      · rw [if_pos hc, if_pos hc, ih]
        cases greedy inRun next s <;> simp [Function.comp_def]
      · rw [if_neg hc, if_neg hc]
        simp [Function.comp_def]

/-! ## What items take -/

namespace Item

variable {s t u : Text}

theorem take?_token_iff {token : Text} :
    (Item.token token).take? s = some (t, u) ↔ t = token ∧ s = token ++ u := by
  simp only [take?, Option.map_eq_some_iff, Text.after?_eq_some_iff, Prod.mk.injEq]
  constructor
  · rintro ⟨_, hs, rfl, rfl⟩
    exact ⟨rfl, hs⟩
  · rintro ⟨rfl, hs⟩
    exact ⟨u, hs, rfl, rfl⟩

theorem take?_notBefore_iff {c : Char} :
    (Item.notBefore c).take? s = some (t, u) ↔ t = [] ∧ u = s ∧ s.head? ≠ some c := by
  by_cases h : s.head? = some c <;> simp [take?, h, eq_comm]

theorem take?_run_iff {inRun : Char → Bool} :
    (Item.run inRun).take? s = some (t, u) ↔ LongestRun (inRun · = true) s t u := by
  simp [take?, longestRun_iff]

theorem take?_run₁_iff {inRun : Char → Bool} :
    (Item.run₁ inRun).take? s = some (t, u) ↔ LongestRun (inRun · = true) s t u ∧ t ≠ [] := by
  rw [longestRun_iff, take?]
  split
  · next hnil =>
      rw [hnil]
      exact ⟨fun h => absurd h (by simp), fun h => absurd h.1.1.symm h.2⟩
  · next hne =>
      rw [Option.some.injEq, Prod.mk.injEq]
      exact ⟨fun h => ⟨h, h.1 ▸ hne⟩, fun h => h.1⟩

theorem take?_lineEnd_iff :
    Item.lineEnd.take? s = some (t, u) ↔ t = [] ∧ u = s ∧ (s = [] ∨ s = ['\n']) := by
  by_cases h : s = [] ∨ s = ['\n'] <;> simp [take?, h, eq_comm]

end Item

/-! ## The search and the single pass -/

/-- An item that gives nothing back is found where it takes its part. -/
theorem Item.search?_eq_take? {α : Type} {next : Text → Option α} {i : Item} (h : i.Settled next)
    (s : Text) : i.search? next s = (i.take? s).bind fun r => (next r.2).map fun a => (r.1, a) := by
  cases i with
  | token t => simp only [search?, take?, Option.bind_map, Function.comp_def]
  | notBefore c | lineEnd =>
      rw [search?, take?]
      split <;> rfl
  | run inRun => exact greedy_eq_takeWhile h s
  | run₁ inRun =>
      cases s with
      | nil => rfl
      | cons c s =>
          rw [search?, take?, List.takeWhile_cons, List.dropWhile_cons]
          by_cases hc : inRun c = true
          · simp [hc, greedy_eq_takeWhile h, Function.comp_def]
          · simp [hc]

namespace Pattern

/-- The first way to find a pattern at the start of a text, and what is behind the match. -/
def search? : Pattern → Text → Option (Match × Text)
  | [], s => some (⟨[], [], []⟩, s)
  | (part, i) :: is, s => (i.search? (search? is) s).map fun r => (r.2.1.put part r.1, r.2.2)

/-- What a pattern takes off a text, item by item, and what it leaves. -/
def take? : Pattern → Text → Option (Match × Text)
  | [], s => some (⟨[], [], []⟩, s)
  | (part, i) :: is, s =>
      (i.take? s).bind fun r => (take? is r.2).map fun r' => (r'.1.put part r.1, r'.2)

theorem take?_cons_iff {part : Part} {i : Item} {is : Pattern} {s rest : Text} {m : Match} :
    take? ((part, i) :: is) s = some (m, rest) ↔
      ∃ t u m', i.take? s = some (t, u) ∧ is.take? u = some (m', rest) ∧ m = m'.put part t := by
  simp only [take?, Option.bind_eq_some_iff, Option.map_eq_some_iff, Prod.exists, Prod.mk.injEq]
  constructor
  · rintro ⟨t, u, hi, m', _, his, rfl, rfl⟩
    exact ⟨t, u, m', hi, his, rfl⟩
  · rintro ⟨t, u, m', hi, his, rfl⟩
    exact ⟨t, u, hi, m', rest, his, rfl, rfl⟩

theorem take?_nil_iff {s rest : Text} {m : Match} :
    take? [] s = some (m, rest) ↔ m = ⟨[], [], []⟩ ∧ rest = s := by
  simp [take?, eq_comm]

/-- No run of the pattern has a use for giving back. -/
def Settled : Pattern → Prop
  | [] => True
  | (_, i) :: is => i.Settled (search? is) ∧ Settled is

/-- **Without a use for giving back, a search is a single pass.** -/
theorem search?_eq_take? {is : Pattern} (h : is.Settled) (s : Text) :
    is.search? s = is.take? s := by
  induction is generalizing s with
  | nil => rfl
  | cons item is ih =>
      obtain ⟨part, i⟩ := item
      rw [search?, take?, Item.search?_eq_take? h.1, Option.map_bind]
      congr 1
      funext r
      rw [Function.comp_apply, ih h.2, Option.map_map]
      rfl

end Pattern

/-! ## The forms of references -/

/-- The pattern of what follows the opening token of a reference. -/
def Tokens.partsPattern (t : Tokens) : Pattern :=
  [(.path, .run (outside t.refEnd)), (.unnamed, .token t.refEnd),
    (.trailing, .run (outside t.close)), (.unnamed, .token t.close)]

/-- The pattern of a reference with three tokens. -/
def Tokens.pattern (t : Tokens) : Pattern :=
  (.opening, .token t.start) ::
    ((if t.guarded then [(.unnamed, .notBefore ':')] else []) ++ t.partsPattern)

/-- The pattern of the line that sets the directory of images. -/
def imagesDirectoryPattern : Pattern :=
  [(.opening, .token imagesDirectoryToken), (.path, .run isBlank),
    (.path, .run₁ fun c => !isBlank c), (.trailing, .run (· != '\n')), (.unnamed, .lineEnd)]

/-- The pattern of a form of reference. -/
def Grammar.pattern : Grammar → Pattern
  | imagesDirectory => imagesDirectoryPattern
  | tokens t => t.pattern

namespace Tokens

variable {t : Tokens}

theorem search?_closing (t : Tokens) :
    Pattern.search? [(.trailing, .run (outside t.close)), (.unnamed, .token t.close)] = fun s =>
      (greedy (outside t.close) (Text.after? t.close) s).map fun r => (⟨[], [], r.1⟩, r.2) := by
  have htoken : Pattern.search? [(.unnamed, .token t.close)] = fun s =>
      (Text.after? t.close s).map fun rest => (⟨[], [], []⟩, rest) := by
    funext s
    cases h : Text.after? t.close s <;> simp [Pattern.search?, Item.search?, Match.put, h]
  funext s
  rw [Pattern.search?, htoken, Item.search?, greedy_map, Option.map_map]
  simp [Function.comp_def, Match.put]

theorem search?_partsPattern (t : Tokens) (s : Text) :
    t.partsPattern.search? s = (t.parts? s).map fun r => (⟨[], r.1, r.2.1⟩, r.2.2) := by
  have hend : Pattern.search? [(.unnamed, .token t.refEnd), (.trailing, .run (outside t.close)),
      (.unnamed, .token t.close)] = fun s =>
        ((Text.after? t.refEnd s).bind (greedy (outside t.close) (Text.after? t.close))).map
          fun r => (⟨[], [], r.1⟩, r.2) := by
    funext s
    rw [Pattern.search?, search?_closing, Item.search?]
    cases Text.after? t.refEnd s <;> simp [Function.comp_def, Match.put]
  rw [partsPattern, Pattern.search?, hend, Item.search?, greedy_map, Option.map_map, parts?]
  simp [Function.comp_def, Match.put]

theorem search?_pattern (t : Tokens) (s : Text) :
    t.pattern.search? s = (Text.after? t.start s).bind fun s =>
      if t.guarded && s.head? == some ':' then none
      else (t.parts? s).map fun r => (⟨t.start, r.1, r.2.1⟩, r.2.2) := by
  rw [pattern, Pattern.search?, Item.search?]
  cases Text.after? t.start s with
  | none => rfl
  | some s =>
      cases hguard : t.guarded with
      | false => simp [search?_partsPattern, Function.comp_def, Match.put]
      | true =>
          simp only [Bool.true_and, beq_iff_eq, if_true, List.singleton_append, Option.bind_some]
          rw [Pattern.search?, Item.search?]
          split <;> simp [search?_partsPattern, Function.comp_def, Match.put]

/-- **The matches of a grammar are those of its pattern.** -/
theorem match?_eq_search? (t : Tokens) (s : Text) :
    t.match? s = (t.pattern.search? s).map Prod.fst := by
  rw [match?, search?_pattern]
  cases Text.after? t.start s with
  | none => rfl
  | some s =>
      simp only [Option.bind_some]
      split
      · rfl
      · simp [Function.comp_def]

/-- A token cannot be found in front of a character outside of it. -/
theorem search?_token_cons {token : Text} (ht : token ≠ []) {part : Part} {is : Pattern} {c : Char}
    (hc : outside token c = true) (s : Text) :
    Pattern.search? ((part, .token token) :: is) (c :: s) = none := by
  have hafter : Text.after? token (c :: s) = none := by
    rw [← Option.not_isSome_iff_eq_none]
    intro hsome
    obtain ⟨r, hr⟩ := Option.isSome_iff_exists.1 hsome
    obtain ⟨d, u, hcons, hd⟩ := outside_head ht hr
    obtain ⟨rfl, -⟩ := List.cons.inj hcons
    rw [hc] at hd
    exact absurd hd (by decide)
  rw [Pattern.search?, Item.search?, hafter]
  rfl

/-- A run outside of a token gives back in vain in front of it. -/
theorem unyielding_outside {token : Text} (ht : token ≠ []) (part : Part) (is : Pattern) :
    Unyielding (outside token) (Pattern.search? ((part, .token token) :: is)) := by
  intro c s hc hsome
  rw [search?_token_cons ht hc] at hsome
  exact absurd hsome (by simp)

theorem settled_pattern (ht : t.Solid) : t.pattern.Settled := by
  have hparts : t.partsPattern.Settled :=
    ⟨unyielding_outside ht.refEnd _ _, trivial, unyielding_outside ht.close _ _, trivial, trivial⟩
  rw [pattern]
  split
  · exact ⟨trivial, trivial, hparts⟩
  · exact ⟨trivial, hparts⟩

end Tokens

/-! ## The line for the directory of images -/

theorem imagesDirectoryMatch?_eq_take? (s : Text) :
    imagesDirectoryMatch? s = (imagesDirectoryPattern.take? s).map Prod.fst := by
  rw [imagesDirectoryMatch?]
  cases h : Text.after? imagesDirectoryToken s with
  | none =>
      simp only [imagesDirectoryPattern, Pattern.take?, Item.take?, h, Option.map_none,
        Option.bind_none]
  | some s =>
      simp only [imagesDirectoryPattern, Pattern.take?, Item.take?, h, Option.map_some,
        Option.bind_some]
      by_cases hword : (s.dropWhile isBlank).takeWhile (fun c => !isBlank c) = []
      · rw [if_pos hword, if_pos hword]
        rfl
      · rw [if_neg hword, if_neg hword]
        simp only [Option.bind_some]
        split
        · simp only [Match.put, List.append_nil, Option.map_some, Option.bind_some]
        · rfl

/-- The end of the line cannot be found in front of a character that is not a line feed. -/
theorem search?_lineEnd_cons {c : Char} (hc : c ≠ '\n') (s : Text) :
    Pattern.search? [(.unnamed, .lineEnd)] (c :: s) = none := by
  simp [Pattern.search?, Item.search?, hc]

/-- The rest of a line can be found behind any character of the line. -/
theorem search?_rest_cons {c : Char} (hc : c ≠ '\n') (s : Text) :
    (Pattern.search? [(.trailing, .run (· != '\n')), (.unnamed, .lineEnd)] (c :: s)).isSome =
      (Pattern.search? [(.trailing, .run (· != '\n')), (.unnamed, .lineEnd)] s).isSome := by
  rw [Pattern.search?, Pattern.search?, Item.search?, Item.search?, greedy]
  cases hrest : greedy (· != '\n') (Pattern.search? [(.unnamed, .lineEnd)]) s with
  | some r => simp [hc]
  | none => simp [hc, search?_lineEnd_cons]

theorem settled_imagesDirectory : imagesDirectoryPattern.Settled := by
  refine ⟨trivial, ?blanks, ?word, ?rest, trivial, trivial⟩
  case blanks =>
    -- a word does not begin with white space
    intro c s hc hsome
    simp [Pattern.search?, Item.search?, hc] at hsome
  case word =>
    intro c s hc hsome
    have hne : c ≠ '\n' := by
      rintro rfl
      exact absurd hc (by decide)
    rwa [search?_rest_cons hne] at hsome
  case rest =>
    intro c s hc hsome
    rw [search?_lineEnd_cons (by simpa using hc)] at hsome
    exact absurd hsome (by simp)

namespace Grammar

theorem match?_eq_search? (g : Grammar) (s : Text) :
    g.match? s = (g.pattern.search? s).map Prod.fst := by
  cases g with
  | imagesDirectory =>
      rw [match?, pattern, imagesDirectoryMatch?_eq_take?, Pattern.search?_eq_take?
        settled_imagesDirectory]
  | tokens t => exact t.match?_eq_search? s

theorem settled_pattern {g : Grammar} (hg : g.Solid) : g.pattern.Settled := by
  cases g with
  | imagesDirectory => exact settled_imagesDirectory
  | tokens t => exact Tokens.settled_pattern hg

end Grammar

end Folio
