import Folio.Proofs.Scan

/-!
# Matches with other paths

What a grammar finds in a line after the paths of some matches have been replaced there.

**Theorem (`Grammar.scanned_map`).** If each new match is one that the grammar can read, the
pieces of the new line are the old pieces with the new matches in place of the old ones.

A new match is found where it stands. The characters between the matches are the difficulty: none of
them may begin a match now. A match that begins in front of another one and goes on into it could
only begin there before, because it meets the same tokens in the same order:

* its path ends where the path of the other match ends, and that token was there before, or
* it has its path already, and its further text ends at the first closing token. This is the closing
  token of the other match, unless the path of that match has the closing token in it. So this case
  asks that the path had no such token (`Tokens.Closes`), or that no opening token stands between
  the two.
-/

namespace Folio

/-! ## Tokens and runs -/

/-- A token stands in front of a character that does not belong to it. -/
theorem token_within {token x y s : Text} {c : Char} (hc : c ∉ token)
    (h : x ++ c :: s = token ++ y) : ∃ z, x = token ++ z := by
  rcases List.append_eq_append_iff.1 h with ⟨z, htoken, hs⟩ | ⟨z, hx, -⟩
  · cases z with
    | nil => exact ⟨[], by rw [htoken, List.append_nil, List.append_nil]⟩
    | cons d z =>
        obtain ⟨rfl, -⟩ := List.cons.inj hs
        exact absurd (htoken ▸ by simp) hc
  · exact ⟨z, hx⟩

theorem run_le {token u v x y : Text} (ht : token ≠ []) (hv : ∀ c ∈ v, c ∉ token)
    (h : u ++ (token ++ x) = v ++ y) : ∃ z, u = v ++ z := by
  obtain ⟨c, token, rfl⟩ := List.exists_cons_of_ne_nil ht
  rcases List.append_eq_append_iff.1 h with ⟨z, hz, hs⟩ | ⟨z, hu, -⟩
  · cases z with
    | nil => exact ⟨[], by rw [hz, List.append_nil, List.append_nil]⟩
    | cons d z =>
        obtain ⟨rfl, -⟩ := List.cons.inj hs
        exact absurd List.mem_cons_self (hv c (hz ▸ by simp))
  · exact ⟨z, hu⟩

/-- The run in front of a token is determined by the text. -/
theorem run_unique {token u v x y : Text} (ht : token ≠ []) (hu : ∀ c ∈ u, c ∉ token)
    (hv : ∀ c ∈ v, c ∉ token) (h : u ++ (token ++ x) = v ++ (token ++ y)) : u = v := by
  obtain ⟨z, hz⟩ := run_le ht hv h
  obtain ⟨z', hz'⟩ := run_le ht hu h.symm
  have hlen : z.length + z'.length = 0 := by
    have h1 := congrArg List.length hz
    have h2 := congrArg List.length hz'
    simp only [List.length_append] at h1 h2
    omega
  obtain rfl : z = [] := List.eq_nil_of_length_eq_zero (by omega)
  rw [hz, List.append_nil]

/-! ## A match in front of another one -/

namespace Tokens

/-- No two of the tokens have a character in common. -/
structure Apart (t : Tokens) : Prop extends t.Solid where
  start_refEnd : ∀ c ∈ t.start, c ∉ t.refEnd
  start_close : ∀ c ∈ t.start, c ∉ t.close
  refEnd_close : ∀ c ∈ t.refEnd, c ∉ t.close

/-- The text has the closing token after a run without its characters. -/
def Closes (t : Tokens) (s : Text) : Prop :=
  ∃ run rest, s = run ++ (t.close ++ rest) ∧ ∀ c ∈ run, c ∉ t.close

variable {t : Tokens}

theorem Apart.closes (ht : t.Apart) {m : Match} (hm : t.Reads m)
    (hpath : ∀ c ∈ m.path, c ∈ t.close → t.close = [c]) :
    t.Closes (t.write m.opening m.path m.trailing) := by
  by_cases h : ∃ c ∈ m.path, c ∈ t.close
  · obtain ⟨c, hc, hclose⟩ := h
    have hmem : c ∈ t.write m.opening m.path m.trailing := by simp [write, hc]
    obtain ⟨run, rest, hrun, hfree⟩ := List.eq_append_cons_of_mem hmem
    refine ⟨run, rest, by rw [hrun, hpath c hc hclose]; rfl, fun d hd => ?_⟩
    rw [hpath c hc hclose, List.mem_singleton]
    rintro rfl
    exact hfree hd
  · refine ⟨m.opening ++ m.path ++ t.refEnd ++ m.trailing, [], by simp [write], fun c hc => ?_⟩
    simp only [List.mem_append] at hc
    rcases hc with ((hc | hc) | hc) | hc
    · exact ht.start_close c (hm.opening ▸ hc)
    · exact fun hclose => h ⟨c, hc, hclose⟩
    · exact ht.refEnd_close c hc
    · exact hm.trailing c hc

/-- A run in front of the closing token does not go beyond a match that ends with that token. -/
theorem closes_of_append (ht : t.close ≠ []) {run : Text} {m : Match}
    (hrun : ∀ c ∈ run, c ∉ t.close) (rest tail : Text)
    (h : t.write m.opening m.path m.trailing ++ tail = run ++ (t.close ++ rest)) :
    t.Closes (t.write m.opening m.path m.trailing) := by
  have h' : (m.opening ++ m.path ++ t.refEnd ++ m.trailing) ++ (t.close ++ tail) =
      run ++ (t.close ++ rest) := by
    rw [← h, write]
    simp only [List.append_assoc]
  obtain ⟨w, hw⟩ := run_le ht hrun h'
  rw [hw, List.append_assoc, List.append_cancel_left_eq, ← List.append_assoc] at h'
  obtain ⟨v, hv⟩ : t.close <+: w ++ t.close :=
    List.prefix_of_prefix_length_le ⟨rest, h'.symm⟩ ⟨tail, rfl⟩ (by simp)
  exact ⟨run, v, by rw [write, hw, List.append_assoc, hv], hrun⟩

/-- The text of a match that the grammar can read begins with a match. -/
theorem match?_isSome_of_reads (ht : t.Solid) {m : Match} (hm : t.Reads m) {s : Text}
    (rest : Text) (hs : s = m.opening ++ m.path ++ t.refEnd ++ m.trailing ++ t.close ++ rest) :
    (t.match? s).isSome = true :=
  Option.isSome_iff_exists.2 ⟨m, (match?_eq_some_iff ht).2 ⟨hm, rest, hs⟩⟩

/-- A match may begin in front of another one and have a path that goes on into it. Both paths end
at the same token, so the path of the other match is the end of its path. -/
theorem path_eq_of_into (ht : t.Apart) {u x y path path' : Text} (hu : u ≠ [])
    (hpath : ∀ c ∈ path, c ∉ t.refEnd) (hpath' : ∀ c ∈ path', c ∉ t.refEnd)
    (hinto : u <+: t.start ++ path)
    (h : u ++ (t.start ++ (path' ++ (t.refEnd ++ x))) = t.start ++ (path ++ (t.refEnd ++ y))) :
    ∃ c w, path = c :: w ++ path' ∧ u ++ t.start = t.start ++ c :: w := by
  have hfree : ∀ c ∈ t.start ++ path, c ∉ t.refEnd := fun c hc =>
    (List.mem_append.1 hc).elim (ht.start_refEnd c) (hpath c)
  have hfree' : ∀ c ∈ u ++ (t.start ++ path'), c ∉ t.refEnd := by
    intro c hc
    rcases List.mem_append.1 hc with hc | hc
    · exact hfree c (hinto.subset hc)
    · exact (List.mem_append.1 hc).elim (ht.start_refEnd c) (hpath' c)
  have hends : u ++ (t.start ++ path') = t.start ++ path :=
    run_unique ht.refEnd hfree' hfree (by simpa only [List.append_assoc] using h)
  rw [← List.append_assoc] at hends
  obtain ⟨w, hw⟩ : t.start <+: u ++ t.start :=
    List.prefix_of_prefix_length_le ⟨path, hends.symm⟩ ⟨path', rfl⟩ (by simp)
  rw [← hw, List.append_assoc, List.append_cancel_left_eq] at hends
  cases w with
  | nil =>
      rw [List.append_nil] at hw
      exact absurd (List.self_eq_append_left.1 hw) hu
  | cons c w => exact ⟨c, w, hends.symm, hw.symm⟩

/-- Such a match does not depend on the path of the other one. -/
theorem match?_isSome_of_path_into (ht : t.Apart) {u x y : Text} (hu : u ≠ []) {m m' n : Match}
    (hm : t.Reads m) (hm' : t.Reads m') (hn : t.Reads n) (hinto : u <+: t.start ++ n.path)
    (h : u ++ (t.start ++ (m'.path ++ (t.refEnd ++ x))) = t.start ++ (n.path ++ (t.refEnd ++ y)))
    (tail : Text) :
    (t.match? (u ++ (t.write m.opening m.path m.trailing ++ tail))).isSome = true := by
  obtain ⟨c, w, hpath, hw⟩ := path_eq_of_into ht hu hn.path hm'.path hinto h
  have hreads : t.Reads ⟨t.start, c :: w ++ m.path, m.trailing⟩ := by
    refine ⟨rfl, fun d hd => ?_, hm.trailing, ?_⟩
    · rcases List.mem_append.1 hd with hd | hd
      · exact hn.path d (hpath ▸ List.mem_append_left _ hd)
      · exact hm.path d hd
    · have hguard := hn.guard
      rw [hpath] at hguard
      exact hguard
  refine match?_isSome_of_reads ht.toSolid hreads tail ?_
  rw [write, hm.opening]
  simp only [← List.append_assoc, hw]

/-- A match whose further text goes on into a text that has the closing token is over there at the
first one. -/
theorem match?_isSome_of_trailing_into (ht : t.Solid) {n : Match} (hn : t.Reads n) {y s : Text}
    (hy : ∀ c ∈ y, c ∉ t.close) (hs : t.Closes s) (tail : Text) :
    (t.match? (t.start ++ (n.path ++ (t.refEnd ++ (y ++ (s ++ tail)))))).isSome = true := by
  obtain ⟨run, rest, rfl, hrun⟩ := hs
  have hreads : t.Reads ⟨t.start, n.path, y ++ run⟩ :=
    ⟨rfl, hn.path, List.forall_mem_append.2 ⟨hy, hrun⟩, hn.guard⟩
  refine match?_isSome_of_reads ht hreads (rest ++ tail) ?_
  simp only [List.append_assoc]

/-- **A match in front of another one does not depend on the path of the other.** -/
theorem match?_isSome_of_redirected (ht : t.Apart) {u tail tail' : Text} (hu : u ≠ [])
    {m m' : Match} (hm : t.Reads m) (hm' : t.Reads m')
    (hclose : m' = m ∨ t.Closes (t.write m.opening m.path m.trailing) ∨ ¬ t.start <+: u)
    (h : (t.match? (u ++ (t.write m'.opening m'.path m'.trailing ++ tail'))).isSome = true) :
    (t.match? (u ++ (t.write m.opening m.path m.trailing ++ tail))).isSome = true := by
  obtain ⟨n, hn⟩ := Option.isSome_iff_exists.1 h
  obtain ⟨hread, rest, hrest⟩ := (match?_eq_some_iff ht.toSolid).1 hn
  simp only [write, hm'.opening, hread.opening, List.append_assoc] at hrest
  obtain ⟨c, start, hstart⟩ := List.exists_cons_of_ne_nil ht.start
  have hc : c ∈ t.start := hstart ▸ List.mem_cons_self
  rcases List.append_eq_append_iff.1 (show u ++ _ = (t.start ++ n.path) ++ _ by
    rw [hrest, List.append_assoc]) with ⟨z, hz, -⟩ | ⟨x, hx, hbehind⟩
  · exact match?_isSome_of_path_into ht hu hm hm' hread ⟨z, hz.symm⟩ hrest tail
  · -- The path ends in front of the other match.
    rw [hstart] at hbehind
    obtain ⟨y, rfl⟩ := token_within (ht.start_refEnd c hc) hbehind.symm
    rw [List.append_assoc, List.append_cancel_left_eq] at hbehind
    rw [hx]
    rcases List.append_eq_append_iff.1 hbehind with ⟨z, rfl, hclosing⟩ | ⟨z, htrailing, hinto⟩
    · -- So does the further text.
      obtain ⟨v, rfl⟩ := token_within (ht.start_close c hc) hclosing.symm
      refine match?_isSome_of_reads ht.toSolid hread
        (v ++ (t.write m.opening m.path m.trailing ++ tail)) ?_
      rw [hread.opening]
      simp only [List.append_assoc]
    · -- The further text goes on into the other match, up to the first closing token.
      have hsplit := hread.trailing
      rw [htrailing, List.forall_mem_append] at hsplit
      have hcloses : t.Closes (t.write m.opening m.path m.trailing) := by
        rcases hclose with rfl | hclose | hstarts
        · rw [← hstart] at hinto
          refine closes_of_append ht.close hsplit.2 rest tail' ?_
          rw [write, hm'.opening]
          simp only [List.append_assoc]
          exact hinto
        · exact hclose
        · refine absurd ?_ hstarts
          rw [hx, List.append_assoc]
          exact List.prefix_append _ _
      have hsome := match?_isSome_of_trailing_into ht.toSolid hread hsplit.1 hcloses tail
      simpa only [List.append_assoc] using hsome

end Tokens

/-! ## The pieces of a line -/

namespace Grammar

/-- The grammar can read the match from its text. -/
def Reads : Grammar → Match → Prop
  | imagesDirectory, m => ImagesDirectoryReads m
  | tokens t, m => t.Reads m

/-- The tokens of the grammar have no characters in common. -/
def Apart : Grammar → Prop
  | imagesDirectory => True
  | tokens t => t.Apart

/-- The text of the match is closed where its path does not matter. -/
def Closes : Grammar → Match → Prop
  | imagesDirectory, _ => True
  | tokens t, m => t.Closes (t.write m.opening m.path m.trailing)

/-- The piece with another match, if it is one. -/
def Piece.map (f : Match → Match) : Piece → Piece
  | .plain c => .plain c
  | .hit m => .hit (f m)

theorem matchHere?_of_not_inline {g : Grammar} (hg : g.toTokens.inline = false) (s : Text) :
    g.matchHere? false s = none := by
  rw [matchHere?, hg]
  rfl

/-- A grammar that is not inline finds nothing behind the start of a line. -/
theorem map_eq_of_not_inline {g : Grammar} (hg : g.toTokens.inline = false) {f : Match → Match}
    {ps : List Piece} (hps : g.Scanned false ps) : ps.map (Piece.map f) = ps := by
  induction ps with
  | nil => rfl
  | cons p ps ih =>
      cases p with
      | plain c => rw [List.map_cons, ih hps.2, Piece.map]
      | hit m => exact absurd hps.1 (by simp [matchHere?_of_not_inline hg])

theorem matchHere?_tokens_of_inline {t : Tokens} (ht : t.inline = true) (first : Bool) (s : Text) :
    (tokens t).matchHere? first s = t.match? s := by
  rw [matchHere?, toTokens, ht, Bool.or_true, if_pos rfl, match?]

/-- A match is closed if it gets another path, and an opening token stands in front of it. -/
def ClosedBehind (g : Grammar) (f : Match → Match) (u : Text) (m : Match) : Prop :=
  f m = m ∨ g.Closes m ∨ ¬ g.toTokens.start <+: u

/-- **No match begins in front of the new matches** that did not begin there before. -/
theorem match?_isSome_of_map {t : Tokens} (ht : t.Apart) (hi : t.inline = true) {f : Match → Match}
    {ps : List Piece} (hps : (tokens t).Scanned false ps)
    (hf : ∀ m, .hit m ∈ ps → t.Reads (f m)) {u : Text}
    (hclosed : ∀ v m rest, ps = v.map .plain ++ .hit m :: rest →
      (tokens t).ClosedBehind f (u ++ v) m)
    (hu : u ≠ []) (h : (t.match? (u ++ (tokens t).text (ps.map (Piece.map f)))).isSome = true) :
    (t.match? (u ++ (tokens t).text ps)).isSome = true := by
  induction ps generalizing u with
  | nil => exact h
  | cons p ps ih =>
      cases p with
      | plain c =>
          have hsnoc : ∀ s : Text, u ++ ([c] ++ s) = (u ++ [c]) ++ s := fun s =>
            (List.append_assoc ..).symm
          rw [List.map_cons, Piece.map, text_cons, pieceText, hsnoc] at h
          rw [text_cons, pieceText, hsnoc]
          refine ih hps.2 (fun m hm => hf m (List.mem_cons_of_mem _ hm)) ?_ (by simp) h
          intro v m rest hrest
          have hclosed' := hclosed (c :: v) m rest (by rw [hrest]; rfl)
          rwa [← List.singleton_append, ← List.append_assoc] at hclosed'
      | hit m =>
          have hm := hps.1
          rw [matchHere?_tokens_of_inline hi] at hm
          have hclose := hclosed [] m ps rfl
          rw [List.append_nil] at hclose
          exact Tokens.match?_isSome_of_redirected ht hu
            ((Tokens.match?_eq_some_iff ht.toSolid).1 hm).1 (hf m List.mem_cons_self) hclose h

/-- The new match is found in the place of the old one. -/
theorem matchHere?_redirected {g : Grammar} (hg : g.Apart) {first : Bool} {s s' : Text}
    {m m' : Match} (hm' : g.Reads m') (hs : g.toTokens.inline = false → s' = s)
    (h : g.matchHere? first (g.textOf m ++ s) = some m) :
    g.matchHere? first (g.textOf m' ++ s') = some m' := by
  rw [matchHere?] at h ⊢
  split at h
  · next hfirst =>
      rw [if_pos hfirst]
      cases g with
      | imagesDirectory =>
          rw [hs rfl]
          obtain ⟨-, rest, hrest, htext⟩ := imagesDirectoryMatch?_eq_some_iff.1 h
          refine imagesDirectoryMatch?_eq_some_iff.2 ⟨hm', rest, hrest, ?_⟩
          have hsrest : s = rest := by simpa [textOf, Tokens.write, toTokens] using htext
          simp [hsrest, textOf, Tokens.write, toTokens]
      | tokens t => exact (Tokens.match?_eq_some_iff hg.toSolid).2 ⟨hm', s', rfl⟩
  · exact absurd h (by simp)

/-- **The pieces of a line with other paths** are its pieces with the new matches. -/
theorem scanned_map {g : Grammar} (hg : g.Apart) {f : Match → Match} {first : Bool}
    {ps : List Piece} (hps : g.Scanned first ps) (hf : ∀ m, .hit m ∈ ps → g.Reads (f m))
    (hclosed : ∀ u m, u.map .plain ++ [.hit m] <:+: ps → g.ClosedBehind f u m) :
    g.Scanned first (ps.map (Piece.map f)) := by
  induction ps generalizing first with
  | nil => exact hps
  | cons p ps ih =>
      have hf' := fun m hm => hf m (List.mem_cons_of_mem p hm)
      have hclosed' : ∀ u m, u.map .plain ++ [.hit m] <:+: ps → g.ClosedBehind f u m :=
        fun u m h => hclosed u m (h.trans (List.suffix_cons p ps).isInfix)
      cases p with
      | plain c =>
          refine ⟨?_, ih hps.2 hf' hclosed'⟩
          cases hi : g.toTokens.inline with
          | false =>
              rw [map_eq_of_not_inline hi hps.2]
              exact hps.1
          | true =>
              cases g with
              | imagesDirectory => exact absurd hi (by simp [toTokens])
              | tokens t =>
                  replace hi : t.inline = true := hi
                  have hnone := hps.1
                  rw [matchHere?_tokens_of_inline hi, ← Option.not_isSome_iff_eq_none] at hnone ⊢
                  refine fun h => hnone (match?_isSome_of_map hg hi hps.2 hf' ?_
                    (List.cons_ne_nil c []) h)
                  intro v m rest hrest
                  exact hclosed (c :: v) m ⟨[], rest, by rw [hrest]; simp⟩
      | hit m =>
          refine ⟨matchHere?_redirected hg (hf m List.mem_cons_self) (fun hi => ?_) hps.1,
            ih hps.2 hf' hclosed'⟩
          rw [map_eq_of_not_inline hi hps.2]

end Grammar

end Folio
