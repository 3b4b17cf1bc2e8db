import Folio.Proofs.Scan

/-!
# Writing a reference and finding it

A reference is written with its tokens around a path and further text, and found with these two as
its parts. **Each undoes the other**, for any three tokens: they may share characters, and they may
be empty, so that a run is told by nothing but the end of the line.

* What has been found can be written again. The text of a match is that of a reference with its
  parts, whatever was given back to find it, so a line in which each match is written anew is the
  line as it was (`Grammar.splice`).
* What is written can be found. If the tokens behind the two parts are not empty, and no character
  of a part stands in the token behind it, then both runs end where they have to. The reference is
  one match from end to end, and nothing is found behind it.

Main result: `Tokens.spans_render`.
-/

namespace Folio

namespace Grammar

/-! ## Matches by their places -/

/-- The line with another text in place of each match, from the place `n` on. -/
def spliceFrom (write : Match → Text) (line : Text) : Nat → List (Nat × Nat × Match) → Text
  | n, [] => line.drop n
  | n, (b, e, m) :: found => line.extract n b ++ write m ++ spliceFrom write line e found

/-- The line with another text in place of each match. -/
def splice (write : Match → Text) (found : List (Nat × Nat × Match)) (line : Text) : Text :=
  spliceFrom write line 0 found

/-- The text of a piece, with another one in place of a match. -/
def Piece.textWith (write : Match → Text) : Piece → Text
  | .plain c => [c]
  | .hit m => write m

variable {g : Grammar} {line : Text} {n : Nat} {ps : List Piece} {x : Nat × Nat × Match}

theorem hit_mem_of_mem_spansFrom (hx : x ∈ g.spansFrom n ps) : .hit x.2.2 ∈ ps := by
  induction ps generalizing n with
  | nil => exact absurd hx List.not_mem_nil
  | cons p ps ih =>
      cases p with
      | plain c => exact List.mem_cons_of_mem _ (ih hx)
      | hit m =>
          rcases List.mem_cons.1 hx with rfl | hx
          · exact List.mem_cons_self
          · exact List.mem_cons_of_mem _ (ih hx)

theorem le_of_mem_spansFrom (hx : x ∈ g.spansFrom n ps) : n ≤ x.1 := by
  induction ps generalizing n with
  | nil => exact absurd hx List.not_mem_nil
  | cons p ps ih =>
      cases p with
      | plain c => exact Nat.le_of_succ_le (ih hx)
      | hit m =>
          rcases List.mem_cons.1 hx with rfl | hx
          · exact Nat.le_refl n
          · exact Nat.le_trans (Nat.le_add_right ..) (ih hx)

theorem drop_add_of_append {s s' : Text} (h : line.drop n = s ++ s') :
    line.drop (n + s.length) = s' := by
  rw [← List.drop_drop, h, List.drop_left]

/-- **The places of a match** are those of its text. -/
theorem extract_of_mem_spansFrom (h : line.drop n = g.text ps) (hx : x ∈ g.spansFrom n ps) :
    line.extract x.1 x.2.1 = g.textOf x.2.2 := by
  induction ps generalizing n with
  | nil => exact absurd hx List.not_mem_nil
  | cons p ps ih =>
      have hnext := drop_add_of_append h
      cases p with
      | plain c => exact ih hnext hx
      | hit m =>
          rcases List.mem_cons.1 hx with rfl | hx
          · rw [List.extract_eq_take_drop, h, text_cons, pieceText, Nat.add_sub_cancel_left,
              List.take_left]
          · exact ih hnext hx

theorem spliceFrom_of_drop_eq_cons {write : Match → Text} {c : Char} {s : Text}
    {found : List (Nat × Nat × Match)} (h : line.drop n = c :: s)
    (hfound : ∀ x ∈ found, n + 1 ≤ x.1) :
    spliceFrom write line n found = c :: spliceFrom write line (n + 1) found := by
  have hnext : line.drop (n + 1) = s := by
    rw [← List.drop_drop, h]
    rfl
  cases found with
  | nil => rw [spliceFrom, spliceFrom, h, hnext]
  | cons x found =>
      -- The first match begins behind this character.
      obtain ⟨b, e, m⟩ := x
      have hb : n + 1 ≤ b := hfound _ List.mem_cons_self
      have hlength : b - n = b - (n + 1) + 1 := by omega
      rw [spliceFrom, spliceFrom, List.extract_eq_take_drop, List.extract_eq_take_drop, h, hnext,
        hlength, List.take_succ_cons]
      rfl

/-- **To replace each match is to replace it among the pieces.** -/
theorem spliceFrom_spansFrom (write : Match → Text) (h : line.drop n = g.text ps) :
    spliceFrom write line n (g.spansFrom n ps) = ps.flatMap (Piece.textWith write) := by
  induction ps generalizing n with
  | nil => exact h
  | cons p ps ih =>
      have hnext := ih (drop_add_of_append h)
      cases p with
      | plain c =>
          rw [spansFrom, spliceFrom_of_drop_eq_cons h fun x hx => le_of_mem_spansFrom hx]
          exact congrArg (c :: ·) hnext
      | hit m =>
          rw [spansFrom, spliceFrom, List.extract_eq_take_drop, Nat.sub_self, List.take_zero]
          exact congrArg (write m ++ ·) hnext

theorem drop_zero_eq_text (g : Grammar) (line : Text) : line.drop 0 = g.text (g.pieces line) :=
  (flatMap_pieceText_pieces g line).symm

end Grammar

/-! ## What has been found can be written -/

namespace Tokens

variable {t : Tokens}

theorem opening_of_hit_mem {line : Text} {m : Match}
    (hm : .hit m ∈ (Grammar.tokens t).pieces line) : m.opening = t.start := by
  obtain ⟨s, hs⟩ := Grammar.match?_of_hit_mem hm
  exact (match?_eq_some hs).1

theorem textOf_eq_render {m : Match} (hm : m.opening = t.start) :
    (Grammar.tokens t).textOf m = (Grammar.tokens t).render m.path m.trailing := by
  rw [Grammar.textOf, hm]
  rfl

/-- A line in which each match is written anew is the line as it was. -/
theorem splice_render (t : Tokens) (line : Text) :
    Grammar.splice (fun m => (Grammar.tokens t).render m.path m.trailing)
      ((Grammar.tokens t).spans line) line = line := by
  have htext : ∀ p ∈ (Grammar.tokens t).pieces line,
      Grammar.Piece.textWith (fun m => (Grammar.tokens t).render m.path m.trailing) p =
        (Grammar.tokens t).pieceText p := by
    intro p hp
    cases p with
    | plain c => rfl
    | hit m => exact (textOf_eq_render (opening_of_hit_mem hp)).symm
  rw [Grammar.splice, Grammar.spans, Grammar.spliceFrom_spansFrom _ (Grammar.drop_zero_eq_text _ _),
    List.flatMap_def, List.map_congr_left htext, ← List.flatMap_def,
    Grammar.flatMap_pieceText_pieces]

end Tokens

/-! ## What is written can be found -/

namespace Grammar

variable {g : Grammar}

theorem piecesFrom_of_length_le (hnil : g.match? [] = none) {first : Bool} {skip : Nat} {s : Text}
    (hskip : s.length ≤ skip) : g.piecesFrom first skip s = [] := by
  induction s generalizing first skip with
  | nil =>
      have hhere : g.matchHere? first [] = none := by
        rw [matchHere?, hnil, ite_self]
      cases skip <;> rw [piecesFrom, hhere]
  | cons c s ih =>
      obtain ⟨k, rfl⟩ := Nat.exists_eq_add_one.2 (Nat.lt_of_lt_of_le (Nat.succ_pos _) hskip)
      exact ih (Nat.le_of_succ_le_succ hskip)

/-- A match from end to end is the only one. -/
theorem spans_of_match? (hnil : g.match? [] = none) {m : Match} (hne : g.textOf m ≠ [])
    (h : g.match? (g.textOf m) = some m) :
    g.spans (g.textOf m) = [(0, (g.textOf m).length, m)] := by
  have hpieces : g.pieces (g.textOf m) = [.hit m] := by
    obtain ⟨c, s, hs⟩ := List.exists_cons_of_ne_nil hne
    rw [hs] at h
    have hhere : g.matchHere? true (c :: s) = some m := h
    rw [pieces, hs, piecesFrom, hhere]
    simp only [hs, List.length_cons]
    rw [piecesFrom_of_length_le hnil (Nat.le_refl _)]
  rw [spans, hpieces, spansFrom, spansFrom, Nat.zero_add]

end Grammar

namespace Tokens

variable {t : Tokens}

theorem match?_nil (href : t.refEnd ≠ []) (hclose : t.close ≠ []) : t.match? [] = none := by
  rw [← Option.not_isSome_iff_eq_none]
  intro hsome
  obtain ⟨m, hm⟩ := Option.isSome_iff_exists.1 hsome
  obtain ⟨-, rest, hrest⟩ := (match?_eq_some_iff_of_ends href hclose).1 hm
  simp [write, href] at hrest

theorem spans_of_reads (href : t.refEnd ≠ []) (hclose : t.close ≠ []) {m : Match}
    (hm : t.Reads m) :
    (Grammar.tokens t).spans ((Grammar.tokens t).render m.path m.trailing) =
      [(0, ((Grammar.tokens t).render m.path m.trailing).length, m)] := by
  rw [← textOf_eq_render hm.opening]
  have hnil : (Grammar.tokens t).match? [] = none := match?_nil href hclose
  refine Grammar.spans_of_match? hnil ?_ ?_
  · simp [Grammar.textOf, Grammar.toTokens, write, href]
  · exact (match?_eq_some_iff_of_ends href hclose).2 ⟨hm, [], (List.append_nil _).symm⟩

/-- **Writing a reference and finding it undo each other.** For any three tokens, and in every line,
the text of each match is that of a reference with its parts, and the line with each match written
anew is the line as it was. A reference that is written with a path and further text, neither of
which has a character of the token behind it, is one match from end to end, with these two as its
parts; unless a further colon comes behind an opening token that is guarded. -/
theorem spans_render (t : Tokens) :
    (∀ line : Text,
      (∀ x ∈ (Grammar.tokens t).spans line, x.2.2.opening = t.start ∧
        line.extract x.1 x.2.1 = (Grammar.tokens t).render x.2.2.path x.2.2.trailing) ∧
      Grammar.splice (fun m => (Grammar.tokens t).render m.path m.trailing)
        ((Grammar.tokens t).spans line) line = line) ∧
    (t.refEnd ≠ [] → t.close ≠ [] → ∀ path trailing : Text, (∀ c ∈ path, c ∉ t.refEnd) →
      (∀ c ∈ trailing, c ∉ t.close) →
      (t.inline = true → t.start.getLast? = some ':' → (path ++ t.refEnd).head? ≠ some ':') →
      (Grammar.tokens t).spans ((Grammar.tokens t).render path trailing) =
        [(0, ((Grammar.tokens t).render path trailing).length, ⟨t.start, path, trailing⟩)]) := by
  refine ⟨fun line => ⟨fun x hx => ?_, splice_render t line⟩, ?_⟩
  · have hopening := opening_of_hit_mem (Grammar.hit_mem_of_mem_spansFrom hx)
    have htext := Grammar.extract_of_mem_spansFrom (Grammar.drop_zero_eq_text _ line) hx
    exact ⟨hopening, htext.trans (textOf_eq_render hopening)⟩
  · intro href hclose path trailing hpath htrailing hguard
    refine spans_of_reads href hclose (m := ⟨t.start, path, trailing⟩)
      ⟨rfl, hpath, htrailing, fun h => ?_⟩
    rw [guarded, Bool.and_eq_true, beq_iff_eq] at h
    exact hguard h.1 h.2

/-- Tokens that share characters, the first one guarded. -/
theorem spans_render_guarded :
    let t : Tokens := ⟨['.', '*', ':'], ['[', '^'], ['^', ']'], true⟩
    let path := ['a', ']', ':', 'b']
    let trailing := ['(', 'c', '[']
    (t.refEnd ≠ [] ∧ t.close ≠ [] ∧ (∀ c ∈ path, c ∉ t.refEnd) ∧ (∀ c ∈ trailing, c ∉ t.close) ∧
      (path ++ t.refEnd).head? ≠ some ':') ∧
    String.ofList ((Grammar.tokens t).render path trailing) = ".*:a]:b[^(c[^]" ∧
    (Grammar.tokens t).spans ((Grammar.tokens t).render path trailing) =
      [(0, 14, ⟨t.start, path, trailing⟩)] := by
  intro t path trailing
  have href : t.refEnd ≠ [] := by decide
  have hclose : t.close ≠ [] := by decide
  have hpath : ∀ c ∈ path, c ∉ t.refEnd := by simp [path, t]
  have htrailing : ∀ c ∈ trailing, c ∉ t.close := by simp [trailing, t]
  have hguard : (path ++ t.refEnd).head? ≠ some ':' := by decide
  exact ⟨⟨href, hclose, hpath, htrailing, hguard⟩, rfl,
    (spans_render t).2 href hclose path trailing hpath htrailing fun _ _ => hguard⟩

/-- With empty tokens, the first run leaves nothing for the second one. -/
example : (Grammar.tokens ⟨[], [], [], true⟩).spans "a\nb".toList =
    [(0, 1, ⟨[], ['a'], []⟩), (1, 1, ⟨[], [], []⟩), (2, 3, ⟨[], ['b'], []⟩),
      (3, 3, ⟨[], [], []⟩)] := by decide

end Tokens

end Folio
