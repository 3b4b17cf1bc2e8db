import Folio.Grammar

/-!
# References are found by a scan

A match is looked for with runs as long as possible, which are shortened until the rest fits. For
tokens that are not empty nothing is ever shortened: a run ends at the first character of its token,
so **the parts of a match are told by the text alone**.

* `Tokens.Reads` says which matches a grammar can read: the path holds no character of the token
  behind it, the further text none of the closing token, and the guard is kept.
* `Tokens.match?_eq_some_iff` and `imagesDirectoryMatch?_eq_some_iff` say when a text begins with a
  given match.
* `Grammar.Scanned` says it of the pieces of a whole line.

Main result: `pieces_eq_iff`, a line has just one division into pieces that are scanned.
-/

namespace Folio

/-! ## Runs -/

/-- A run that nothing can follow but a character outside of it is the longest one. -/
theorem greedy_eq_some_iff {α : Type} {inRun : Char → Bool} {next : Text → Option α}
    (hstop : ∀ s a, next s = some a → ∃ c r, s = c :: r ∧ inRun c = false) {s run : Text} {a : α} :
    greedy inRun next s = some (run, a) ↔
      ∃ rest, s = run ++ rest ∧ (∀ c ∈ run, inRun c = true) ∧ next rest = some a := by
  refine ⟨greedy_eq_some, ?_⟩
  rintro ⟨rest, rfl, hrun, hnext⟩
  induction run with
  | nil =>
      -- The run is over at once, since what follows is not in it.
      obtain ⟨c, r, rfl, hout⟩ := hstop _ _ hnext
      simp [greedy, hout, hnext]
  | cons c run ih =>
      rw [List.forall_mem_cons] at hrun
      simp [greedy, hrun.1, ih hrun.2]

theorem outside_eq_true_iff {token : Text} (ht : token ≠ []) {c : Char} :
    outside token c = true ↔ c ∉ token := by
  simp [outside, ht]

theorem outside_head {token s r : Text} (ht : token ≠ []) (h : Text.after? token s = some r) :
    ∃ c u, s = c :: u ∧ outside token c = false := by
  obtain ⟨c, token, rfl⟩ := List.exists_cons_of_ne_nil ht
  rw [Text.after?_eq_some_iff] at h
  exact ⟨c, token ++ r, h, by simp [outside]⟩

/-! ## Matches -/

/-- The opening, the path's end and the closing token are not empty. -/
structure Tokens.Solid (t : Tokens) : Prop where
  start : t.start ≠ []
  refEnd : t.refEnd ≠ []
  close : t.close ≠ []

/-- The grammar can read the match from its text: the path ends where its token begins, the further
text where the closing token begins, and the opening token is not that of a block form. -/
structure Tokens.Reads (t : Tokens) (m : Match) : Prop where
  opening : m.opening = t.start
  path : ∀ c ∈ m.path, c ∉ t.refEnd
  trailing : ∀ c ∈ m.trailing, c ∉ t.close
  guard : t.guarded = true → (m.path ++ t.refEnd).head? ≠ some ':'

namespace Tokens

variable {t : Tokens}

theorem closing_eq_some_iff (ht : t.close ≠ []) {s trailing rest : Text} :
    greedy (outside t.close) (Text.after? t.close) s = some (trailing, rest) ↔
      s = trailing ++ t.close ++ rest ∧ ∀ c ∈ trailing, c ∉ t.close := by
  rw [greedy_eq_some_iff fun _ _ h => outside_head ht h]
  simp only [outside_eq_true_iff ht, Text.after?_eq_some_iff]
  constructor
  · rintro ⟨_, rfl, htrailing, rfl⟩
    exact ⟨(List.append_assoc ..).symm, htrailing⟩
  · rintro ⟨rfl, htrailing⟩
    exact ⟨_, List.append_assoc .., htrailing, rfl⟩

section Ends

/- The opening token may be empty here. -/
variable (href : t.refEnd ≠ []) (hclose : t.close ≠ [])

include href hclose

theorem parts?_eq_some_iff {s path trailing rest : Text} :
    t.parts? s = some (path, trailing, rest) ↔
      s = path ++ t.refEnd ++ trailing ++ t.close ++ rest ∧ (∀ c ∈ path, c ∉ t.refEnd) ∧
        ∀ c ∈ trailing, c ∉ t.close := by
  have hstop : ∀ (s : Text) (a : Text × Text),
      (Text.after? t.refEnd s).bind (greedy (outside t.close) (Text.after? t.close)) = some a →
        ∃ c r, s = c :: r ∧ outside t.refEnd c = false := by
    intro s a h
    obtain ⟨r, hr, -⟩ := Option.bind_eq_some_iff.1 h
    exact outside_head href hr
  rw [parts?, greedy_eq_some_iff hstop]
  simp only [outside_eq_true_iff href, Option.bind_eq_some_iff, Text.after?_eq_some_iff,
    closing_eq_some_iff hclose]
  constructor
  · rintro ⟨_, rfl, hpath, _, rfl, rfl, htrailing⟩
    exact ⟨by simp only [List.append_assoc], hpath, htrailing⟩
  · rintro ⟨rfl, hpath, htrailing⟩
    exact ⟨_, by simp only [List.append_assoc], hpath, _, rfl, (List.append_assoc ..).symm,
      htrailing⟩

theorem match?_eq_some_iff_of_ends {s : Text} {m : Match} :
    t.match? s = some m ↔
      t.Reads m ∧ ∃ rest, s = t.write m.opening m.path m.trailing ++ rest := by
  have hhead : ∀ path trailing rest : Text,
      (path ++ t.refEnd ++ trailing ++ t.close ++ rest).head? = (path ++ t.refEnd).head? := by
    intro path trailing rest
    obtain ⟨c, u, hu⟩ := List.exists_cons_of_ne_nil href
    cases path <;> simp [hu]
  rw [match?]
  constructor
  · intro h
    split at h
    · exact absurd h (by simp)
    · next s' hs' =>
        rw [Text.after?_eq_some_iff] at hs'
        split at h
        · exact absurd h (by simp)
        · next hguard =>
            obtain ⟨⟨path, trailing, rest⟩, hparts, rfl⟩ := Option.map_eq_some_iff.1 h
            obtain ⟨rfl, hpath, htrailing⟩ := (parts?_eq_some_iff href hclose).1 hparts
            refine ⟨⟨rfl, hpath, htrailing, fun hg hcolon => hguard ?_⟩, rest, ?_⟩
            · rw [hhead, hcolon, hg]
              rfl
            · rw [hs', write]
              simp only [List.append_assoc]
  · rintro ⟨⟨hopening, hpath, htrailing, hguard⟩, rest, rfl⟩
    have hafter : Text.after? t.start (t.write m.opening m.path m.trailing ++ rest) =
        some (m.path ++ t.refEnd ++ m.trailing ++ t.close ++ rest) := by
      rw [Text.after?_eq_some_iff, write, hopening]
      simp only [List.append_assoc]
    have hfree : ¬ (t.guarded &&
        (m.path ++ t.refEnd ++ m.trailing ++ t.close ++ rest).head? == some ':') = true := by
      rw [hhead, Bool.and_eq_true, beq_iff_eq]
      exact fun h => hguard h.1 h.2
    simp only [hafter]
    rw [if_neg hfree, (parts?_eq_some_iff href hclose).2 ⟨rfl, hpath, htrailing⟩, ← hopening]
    rfl

end Ends

/-- **A text begins with a match** just if it begins with the text of one that the grammar reads. -/
theorem match?_eq_some_iff (ht : t.Solid) {s : Text} {m : Match} :
    t.match? s = some m ↔
      t.Reads m ∧ ∃ rest, s = t.write m.opening m.path m.trailing ++ rest :=
  match?_eq_some_iff_of_ends ht.refEnd ht.close

end Tokens

/-! ## The line for the directory of images -/

theorem takeWhile_append_of_stop (p : Char → Bool) {run : Text} (rest : Text)
    (hrun : ∀ c ∈ run, p c = true) (hrest : ∀ c ∈ rest.head?, p c = false) :
    (run ++ rest).takeWhile p = run ∧ (run ++ rest).dropWhile p = rest := by
  rw [List.takeWhile_append_of_pos hrun, List.dropWhile_append_of_pos hrun]
  cases rest with
  | nil => simp
  | cons c rest => simp [hrest c rfl]

theorem head?_dropWhile_eq_false {p : Char → Bool} {s : Text} :
    ∀ c ∈ (s.dropWhile p).head?, p c = false := by
  intro c hc
  have := List.head?_dropWhile_not p s
  rw [Option.mem_def.1 hc] at this
  simpa using this

/-- The parts of a match of the line that sets the directory of images: the path is a word with
white space in front, and the further text begins where the word ends and stays on the line. -/
structure ImagesDirectoryReads (m : Match) : Prop where
  opening : m.opening = imagesDirectoryToken
  path : ∃ blanks word, m.path = blanks ++ word ∧ (∀ c ∈ blanks, isBlank c = true) ∧ word ≠ [] ∧
    ∀ c ∈ word, isBlank c = false
  trailing : '\n' ∉ m.trailing
  blank : ∀ c ∈ m.trailing.head?, isBlank c = true

/-- What is found is a match, up to the end of the line. -/
theorem imagesDirectoryReads_of_match? {s : Text} {m : Match} (h : imagesDirectoryMatch? s = some m) :
    ImagesDirectoryReads m ∧ ∃ rest, (rest = [] ∨ rest = ['\n']) ∧
      s = m.opening ++ m.path ++ m.trailing ++ rest := by
  have hrun : ∀ (p : Char → Bool) (u : Text), ∀ c ∈ u.takeWhile p, p c = true := fun _ _ =>
    List.all_eq_true.1 List.all_takeWhile
  rw [imagesDirectoryMatch?] at h
  split at h
  · exact absurd h (by simp)
  · next s' hs' =>
      rw [Text.after?_eq_some_iff] at hs'
      simp only at h
      split at h
      · exact absurd h (by simp)
      · next hword =>
          split at h
          · next hrest =>
              obtain rfl := Option.some.inj h
              refine ⟨⟨rfl, ⟨_, _, rfl, hrun isBlank s', hword, fun c hc => ?_⟩, fun hc => ?_,
                fun c hc => ?_⟩, _, hrest, ?_⟩
              · simpa using hrun _ _ c hc
              · simpa using hrun _ _ _ hc
              · -- The further text begins with the character at which the word has ended.
                rw [List.head?_takeWhile, Option.mem_filter_iff] at hc
                simpa using head?_dropWhile_eq_false c hc.1
              · rw [hs']
                simp only [List.append_assoc, List.takeWhile_append_dropWhile]
          · exact absurd h (by simp)

/-- A match is found up to the end of the line. -/
theorem imagesDirectoryMatch?_of_reads {m : Match} (hm : ImagesDirectoryReads m) {rest : Text}
    (hrest : rest = [] ∨ rest = ['\n']) :
    imagesDirectoryMatch? (m.opening ++ m.path ++ m.trailing ++ rest) = some m := by
  obtain ⟨opening, path, trailing⟩ := m
  obtain ⟨rfl, ⟨blanks, word, rfl, hblanks, hword, hplain⟩, hline, hblank⟩ := hm
  have hafter : Text.after? imagesDirectoryToken
      (imagesDirectoryToken ++ (blanks ++ word) ++ trailing ++ rest) =
        some (blanks ++ (word ++ (trailing ++ rest))) := by
    rw [Text.after?_eq_some_iff]
    simp only [List.append_assoc]
  obtain ⟨c, word', rfl⟩ := List.exists_cons_of_ne_nil hword
  have hblanks' := takeWhile_append_of_stop isBlank (c :: word' ++ (trailing ++ rest)) hblanks
    (by simpa using hplain c List.mem_cons_self)
  have hwordrun : ∀ d ∈ c :: word', (!isBlank d) = true := by simpa using hplain
  have hword' := takeWhile_append_of_stop (fun c => !isBlank c) (trailing ++ rest) hwordrun (by
      cases trailing with
      | nil => rcases hrest with rfl | rfl <;> simp [isBlank, blankRanges]
      | cons d u => simpa using hblank d rfl)
  have hlinerun : ∀ d ∈ trailing, (d != '\n') = true := fun d hd => by
    have hne : d ≠ '\n' := fun heq => hline (heq ▸ hd)
    simpa using hne
  have htrailing := takeWhile_append_of_stop (· != '\n') rest hlinerun
    (by rcases hrest with rfl | rfl <;> simp)
  rw [imagesDirectoryMatch?]
  simp only [hafter, hblanks'.1, hblanks'.2, hword'.1, hword'.2, htrailing.1, htrailing.2]
  rw [if_neg (by simp), if_pos hrest]

theorem imagesDirectoryMatch?_eq_some_iff {s : Text} {m : Match} :
    imagesDirectoryMatch? s = some m ↔
      ImagesDirectoryReads m ∧ ∃ rest, (rest = [] ∨ rest = ['\n']) ∧
        s = m.opening ++ m.path ++ m.trailing ++ rest := by
  refine ⟨imagesDirectoryReads_of_match?, ?_⟩
  rintro ⟨hm, rest, hrest, rfl⟩
  exact imagesDirectoryMatch?_of_reads hm hrest

/-! ## Whole lines -/

namespace Grammar

/-- The matches of the grammar are not empty. -/
def Solid : Grammar → Prop
  | imagesDirectory => True
  | tokens t => t.Solid

def text (g : Grammar) (ps : List Piece) : Text := ps.flatMap g.pieceText

theorem text_cons (g : Grammar) (p : Piece) (ps : List Piece) :
    g.text (p :: ps) = g.pieceText p ++ g.text ps := rfl

/-- Each of these pieces is what the grammar finds where the piece begins. -/
def Scanned (g : Grammar) : Bool → List Piece → Prop
  | first, [] => g.matchHere? first [] = none
  | first, .plain c :: ps => g.matchHere? first (c :: g.text ps) = none ∧ g.Scanned false ps
  | first, .hit m :: ps =>
      g.matchHere? first (g.textOf m ++ g.text ps) = some m ∧ g.Scanned false ps

theorem textOf_ne_nil {g : Grammar} (hg : g.Solid) {first : Bool} {s : Text} {m : Match}
    (h : g.matchHere? first s = some m) : g.textOf m ≠ [] := by
  have hm : g.match? s = some m := by
    rw [matchHere?] at h
    split at h
    · exact h
    · exact absurd h (by simp)
  cases g with
  | imagesDirectory =>
      have := (imagesDirectoryMatch?_eq_some_iff.1 hm).1.opening
      simp [textOf, Tokens.write, this, imagesDirectoryToken]
  | tokens t =>
      have := ((Tokens.match?_eq_some_iff hg).1 hm).1.opening
      simp [textOf, Tokens.write, toTokens, this, hg.start]

/-- The matches among the pieces are matches of the grammar. -/
theorem match?_of_hit_mem {g : Grammar} {first : Bool} {skip : Nat} {s : Text} {m : Match}
    (hm : .hit m ∈ g.piecesFrom first skip s) : ∃ s', g.match? s' = some m := by
  have hhere : ∀ {first s n}, g.matchHere? first s = some n → ∃ s', g.match? s' = some n := by
    intro first s n h
    rw [matchHere?] at h
    split at h
    · exact ⟨s, h⟩
    · exact absurd h (by simp)
  fun_induction g.piecesFrom first skip s with
  | case1 first skip c s ih => exact ih hm
  | case2 first skip m' h =>
      obtain rfl : m = m' := by simpa using hm
      exact hhere h
  | case3 => exact absurd hm List.not_mem_nil
  | case4 first c s h ih => exact ih (by simpa using hm)
  | case5 first c s m' h hl ih =>
      rcases List.mem_cons.1 hm with heq | hm
      · obtain rfl := Piece.hit.inj heq
        exact hhere h
      · exact ih (by simpa using hm)
  | case6 first c s m' h n hl ih =>
      rcases List.mem_cons.1 hm with heq | hm
      · obtain rfl := Piece.hit.inj heq
        exact hhere h
      · exact ih hm

theorem matchHere?_nil {g : Grammar} (hg : g.Solid) (first : Bool) :
    g.matchHere? first [] = none := by
  cases h : g.matchHere? first [] with
  | none => rfl
  | some m =>
      obtain ⟨rest, hrest⟩ := matchHere?_eq_some h
      exact absurd (List.append_eq_nil_iff.1 hrest.symm).1 (textOf_ne_nil hg h)

/-- Characters to be passed over are passed over. -/
theorem piecesFrom_drop {g : Grammar} (hg : g.Solid) (skip : Nat) (s : Text) :
    g.piecesFrom false skip s = g.piecesFrom false 0 (s.drop skip) := by
  induction skip generalizing s with
  | zero => rfl
  | succ skip ih =>
      cases s with
      | nil => simp [piecesFrom, matchHere?_nil hg]
      | cons c s => rw [piecesFrom, ih, List.drop_succ_cons]

theorem piecesFrom_cons_of_none {g : Grammar} {first : Bool} {c : Char} {s : Text}
    (h : g.matchHere? first (c :: s) = none) :
    g.piecesFrom first 0 (c :: s) = .plain c :: g.piecesFrom false 0 s := by
  rw [piecesFrom, h]

theorem piecesFrom_append_of_some {g : Grammar} (hg : g.Solid) {first : Bool} {m : Match}
    {s : Text} (h : g.matchHere? first (g.textOf m ++ s) = some m) :
    g.piecesFrom first 0 (g.textOf m ++ s) = .hit m :: g.piecesFrom false 0 s := by
  obtain ⟨c, u, hu⟩ := List.exists_cons_of_ne_nil (textOf_ne_nil hg h)
  rw [hu, List.cons_append] at h ⊢
  rw [piecesFrom, h]
  simp only [hu, List.length_cons]
  rw [piecesFrom_drop hg, List.drop_left]

theorem piecesFrom_of_scanned {g : Grammar} (hg : g.Solid) {first : Bool} {ps : List Piece}
    (h : g.Scanned first ps) : g.piecesFrom first 0 (g.text ps) = ps := by
  induction ps generalizing first with
  | nil => simp [text, piecesFrom, matchHere?_nil hg]
  | cons p ps ih =>
      cases p with
      | plain c =>
          rw [text_cons, pieceText, List.singleton_append, piecesFrom_cons_of_none h.1, ih h.2]
      | hit m => rw [text_cons, pieceText, piecesFrom_append_of_some hg h.1, ih h.2]

theorem text_piecesFrom (g : Grammar) (first : Bool) (s : Text) :
    g.text (g.piecesFrom first 0 s) = s :=
  flatMap_pieceText_piecesFrom g first 0 s

theorem scanned_piecesFrom {g : Grammar} (hg : g.Solid) (first : Bool) (s : Text) :
    g.Scanned first (g.piecesFrom first 0 s) := by
  induction hk : s.length using Nat.strongRecOn generalizing first s with
  | _ k ih =>
    cases s with
    | nil =>
        rw [piecesFrom, matchHere?_nil hg]
        exact matchHere?_nil hg first
    | cons c s =>
        rw [List.length_cons] at hk
        cases h : g.matchHere? first (c :: s) with
        | none =>
            rw [piecesFrom_cons_of_none h, Scanned, text_piecesFrom]
            exact ⟨h, ih s.length (by omega) false s rfl⟩
        | some m =>
            obtain ⟨rest, hrest⟩ := matchHere?_eq_some h
            have hlen : (g.textOf m).length + rest.length = k := by
              rw [← hk, ← List.length_append, ← hrest, List.length_cons]
            have hpos := List.length_pos_iff.2 (textOf_ne_nil hg h)
            rw [hrest] at h ⊢
            rw [piecesFrom_append_of_some hg h, Scanned, text_piecesFrom]
            exact ⟨h, ih rest.length (by omega) false rest rfl⟩

/-- **A line has just one division into pieces that are scanned.** -/
theorem pieces_eq_iff {g : Grammar} (hg : g.Solid) {line : Text} {ps : List Piece} :
    g.pieces line = ps ↔ g.text ps = line ∧ g.Scanned true ps := by
  constructor
  · rintro rfl
    exact ⟨text_piecesFrom g true line, scanned_piecesFrom hg true line⟩
  · rintro ⟨rfl, h⟩
    exact piecesFrom_of_scanned hg h

end Grammar

theorem Reference.grammar_solid (r : Reference) : r.grammar.Solid := by
  cases r <;> first | trivial | exact ⟨by decide, by decide, by decide⟩

end Folio
