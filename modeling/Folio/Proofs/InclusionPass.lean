import Folio.Proofs.Readback
import Folio.Proofs.WrittenOnce

/-!
# Including lines in a copy

Which directives make pages is decided one by one, when a document is searched. Which lines are
taken out of a copy is decided by the targets alone, when all documents have been found. So a line
that is to stay where it is can be taken out: because the document that it includes is a page by
another line, or because it is the document of the visit (`doublet_loses_line`).

**Theorem (`Build.kept_directive`).** The line of a directive that makes no page keeps its opening,
its further text and what is behind them, and gets another path, *unless* the document that it
includes is that of the visit, or the directive is marked and some document of the visit promotes
what it includes. In these two cases the directive is taken out.

Only one kind of reference can be found at the start of an including line before the included
documents are looked for, and it is not (`line_inclusion`). The lines of other kinds are looked for
in what is left.
-/

namespace Folio

/-! ## Lines with one match at the start -/

namespace Grammar

variable {g : Grammar}

theorem piecesFrom_of_not_inline (hg : g.toTokens.inline = false) (s : Text) :
    g.piecesFrom false 0 s = s.map .plain := by
  induction s with
  | nil => simp [piecesFrom, matchHere?_of_not_inline hg]
  | cons c s ih =>
      rw [piecesFrom_cons_of_none (matchHere?_of_not_inline hg _), ih]
      rfl

theorem pieces_of_match?_eq_none (hg : g.toTokens.inline = false) {s : Text}
    (h : g.match? s = none) : g.pieces s = s.map .plain := by
  have hhere : g.matchHere? true s = none := h
  cases s with
  | nil => simp [pieces, piecesFrom, hhere]
  | cons c s =>
      rw [pieces, piecesFrom_cons_of_none hhere, piecesFrom_of_not_inline hg]
      rfl

theorem pieces_of_match?_eq_some (hsolid : g.Solid) (hg : g.toTokens.inline = false) {m : Match}
    {rest : Text} (h : g.match? (g.textOf m ++ rest) = some m) :
    g.pieces (g.textOf m ++ rest) = .hit m :: rest.map .plain := by
  have hhere : g.matchHere? true (g.textOf m ++ rest) = some m := h
  rw [pieces, piecesFrom_append_of_some hsolid hhere, piecesFrom_of_not_inline hg]

end Grammar

/-- The kinds of references that are looked for behind the included documents. -/
def Reference.later : List Reference := [imageBlock, diagram, inlineImage, link, crossReference]

theorem Reference.all_eq : all = imagesDirectory :: inclusion :: later := rfl

namespace Copy

variable {c : Copy} {m : Match} {line rest : Text}

-- Nothing here depends on how a path is looked up.
attribute [local irreducible] FileTree.exists? Relink.match?

theorem pieces_plain (c : Copy) (kind : Reference) (s : Text) :
    Relink.pieces c kind (s.map .plain) = ([], .ok s) := by
  induction s with
  | nil => rfl
  | cons x s ih =>
      have hcons : Relink.pieces c kind (.plain x :: s.map .plain) =
          ((Relink.pieces c kind (s.map .plain)).1,
            (Relink.pieces c kind (s.map .plain)).2.map (x :: ·)) := rfl
      rw [List.map_cons, hcons, ih]
      rfl

/-- An including line does not begin as the line for the directory of images does. -/
theorem imagesDirectoryMatch?_of_inclusion (h : Reference.inclusion.grammar.match? line = some m) :
    imagesDirectoryMatch? line = none := by
  have hopening := ((Tokens.match?_eq_some_iff Reference.inclusion.grammar_solid).1 h).1.opening
  obtain ⟨rest, hrest⟩ := Grammar.match?_eq_some h
  rw [Grammar.textOf, hopening] at hrest
  rw [imagesDirectoryMatch?, hrest]
  rfl

theorem line_imagesDirectory (h : Reference.inclusion.grammar.match? line = some m)
    (kinds : List Reference) :
    Relink.line c (.imagesDirectory :: kinds) line = Relink.line c kinds line := by
  have hpieces : Reference.imagesDirectory.grammar.pieces line = line.map .plain :=
    Grammar.pieces_of_match?_eq_none rfl (imagesDirectoryMatch?_of_inclusion h)
  rw [Relink.line, hpieces, pieces_plain]
  rfl

/-- What a match becomes if there is something at the place that it denotes. -/
theorem match?_of_finds (kind : Reference) (h : c.finds m = true) :
    ∃ e, Relink.match? c kind m =
      .ok (e, if c.removes m then [] else kind.grammar.textOf (c.turned kind m)) := by
  have hexists : c.tree.exists? (c.denotes m) = .ok true := by
    rw [finds] at h
    cases hex : c.tree.exists? (c.denotes m) with
    | error f => simp [hex, Except.toOption] at h
    | ok found => simpa [hex, Except.toOption] using h
  cases hmatch : Relink.match? c kind m with
  | error f =>
      rw [match?_eq, hexists] at hmatch
      exact absurd hmatch (by simp)
  | ok r =>
      obtain ⟨e, s⟩ := r
      refine ⟨e, ?_⟩
      rcases match?_eq_ok hmatch with ⟨hout, rfl⟩ | ⟨hin, rfl⟩
      · rw [if_pos hout]
      · rw [hin, if_neg Bool.false_ne_true]

/-- **An including line**: its match is taken out or turned, and the other kinds are looked for in
the line with what is left. -/
theorem line_inclusion (hm : Reference.inclusion.grammar.match? line = some m)
    (hline : line = Reference.inclusion.grammar.textOf m ++ rest) (h : c.finds m = true)
    (kinds : List Reference) :
    (Relink.line c (.inclusion :: kinds) line).2 =
      (Relink.line c kinds ((if c.removes m then []
        else Reference.inclusion.grammar.textOf (c.turned .inclusion m)) ++ rest)).2 := by
  obtain ⟨e, hmatch⟩ := match?_of_finds .inclusion h
  have hpieces : Reference.inclusion.grammar.pieces line = .hit m :: rest.map .plain := by
    rw [hline] at hm ⊢
    exact Grammar.pieces_of_match?_eq_some Reference.inclusion.grammar_solid rfl hm
  rw [Relink.line, hpieces, pieces_hit, hmatch, pieces_plain]
  rfl

end Copy

/-! ## Directives that make no page -/

namespace Search

variable {s : Search}

/-- Only documents are promoted. -/
theorem isPage?_of_mem_promotions {file p : Path} {qs : List Path}
    (h : s.promotions file = .ok qs) (hp : p ∈ qs) : Document.isPage? s.tree p = .ok true := by
  obtain ⟨lines, -, rfl⟩ := exists_of_map_eq_ok h
  obtain ⟨line, -, hline⟩ := List.mem_filterMap.1 hp
  rw [promoted?] at hline
  split at hline
  · exact absurd hline (by simp)
  · simp only at hline
    split at hline
    · exact absurd hline (by simp)
    · split at hline
      · next hpage =>
          obtain rfl := Option.some.inj hline
          exact hpage
      · exact absurd hline (by simp)

end Search

namespace Build

variable {b : Build} {v : Visit}

/-- The document of a directive is a page in spite of the directive: it is the document of the
visit, or the directive is marked and another one makes a page of its document. -/
def Sought (b : Build) (v : Visit) (d : Directive) : Prop :=
  d.actual = v.file ∨ Document.isMarked d.further = true ∧
    ∃ other ∈ (b.found v).targets.keys, ∃ qs, (b.search v).promotions other = .ok qs ∧
      d.actual ∈ qs

theorem mem_keys_iff_sought {page : Page} (hpage : (b.found v).result = .ok page) {d : Directive}
    (hkept : d.promotes? v.tree = .ok false) :
    d.actual ∈ (b.found v).targets.keys ↔ b.Sought v d := by
  have hmem : d.actual ∈ (b.found v).targets.keys ↔ d.actual = v.file ∨
      ∃ other ∈ (b.found v).targets.keys, ∃ qs, (b.search v).promotions other = .ok qs ∧
        d.actual ∈ qs := Search.mem_collect_iff hpage
  rw [hmem, Sought]
  constructor
  · rintro (hroot | ⟨other, hother, qs, hqs, hd⟩)
    · exact .inl hroot
    · refine .inr ⟨?_, other, hother, qs, hqs, hd⟩
      -- Without the mark, the directive would make a page of the document as well.
      by_contra hplain
      rw [Directive.promotes?, if_neg hplain] at hkept
      exact absurd (hkept.symm.trans (Search.isPage?_of_mem_promotions hqs hd)) (by simp)
  · rintro (hroot | ⟨-, hother⟩)
    · exact .inl hroot
    · exact .inr hother

/-- **The line of a directive that makes no page** of a document that exists: it has another path in
the copy, with everything else as it was, unless the document is a page in spite of it. Then the
directive is taken out. -/
theorem kept_directive {page : Page} (hpage : (b.found v).result = .ok page) {file target : Path}
    {line : Text} {d : Directive}
    (hd : Directive.ofLine? v.tree.cwdPath file target line = some d)
    (hkept : d.promotes? v.tree = .ok false)
    (hthere : (b.copyAt v file target).tree.exists? d.actual = .ok true) :
    let c := b.copyAt v file target
    let g := Reference.inclusion.grammar
    ∃ m rest, g.match? line = some m ∧ line = g.textOf m ++ rest ∧
      (¬ b.Sought v d →
        (Relink.line c [.inclusion] line).2 = .ok (g.render (c.way m) m.trailing ++ rest) ∧
        (Relink.line c Reference.all line).2 =
          (Relink.line c Reference.later (g.render (c.way m) m.trailing ++ rest)).2) ∧
      (b.Sought v d →
        (Relink.line c [.inclusion] line).2 = .ok rest ∧
        (Relink.line c Reference.all line).2 = (Relink.line c Reference.later rest).2) := by
  intro c g
  obtain ⟨m, hm, rfl⟩ := Option.map_eq_some_iff.1 hd
  obtain ⟨rest, hline⟩ := Grammar.match?_eq_some hm
  have hfinds : c.finds m = true := Copy.finds_eq_of_exists? hthere
  have hsought := mem_keys_iff_sought hpage hkept
  rw [← OrderedMap.get?_isSome] at hsought
  have hpass : ∀ kinds, (Relink.line c (.inclusion :: kinds) line).2 = _ :=
    Copy.line_inclusion hm hline hfinds
  have hall : Relink.line c Reference.all line =
      Relink.line c (.inclusion :: Reference.later) line := by
    rw [Reference.all_eq, Copy.line_imagesDirectory hm]
  refine ⟨m, rest, hm, hline, fun hnot => ?_, fun hin => ?_⟩
  · have hnone : c.targets.get? (c.denotes m) = none := by
      rw [← Option.not_isSome_iff_eq_none]
      exact fun hsome => hnot (hsought.1 hsome)
    have hremoves : c.removes m = false := by simp [Copy.removes, hnone]
    have hturned : c.turned .inclusion m = g.redirect (c.way m) m := by
      rw [Copy.turned, if_pos]
      simp [Copy.repoints, hfinds, hnone]
    rw [hall, hpass [], hpass Reference.later, hremoves, if_neg Bool.false_ne_true, hturned,
      Grammar.textOf_redirect]
    exact ⟨rfl, rfl⟩
  · have hremoves : c.removes m = true := by
      rw [Copy.removes, hfinds, Bool.true_and]
      exact hsought.2 hin
    rw [hall, hpass [], hpass Reference.later, hremoves, if_pos rfl]
    exact ⟨rfl, rfl⟩

/-- A document that includes two others in its place, and one of them also as a page. -/
def mixedTree : FileTree :=
  .ofFiles [("/src/index.adoc",
      "include::a.adoc[]\ninclude::a.adoc[confluence=include]\ninclude::b.adoc[confluence=include]"),
    ("/src/a.adoc", "= A\n"), ("/src/b.adoc", "= B\n")]

/-- A build of this document below `/work`. -/
def mixed : Build :=
  ⟨Path.absolute mixedTree.cwdPath (.ofText "/src/index.adoc".toList),
    Path.absolute mixedTree.cwdPath (.ofText "/work".toList), .empty, "utf-8".toList, [], none⟩

/-- Both lines have a directive that makes no page. The document of the first is one. -/
theorem mixed_directives :
    ∃ v ∈ mixed.visits mixedTree, (mixed.found v).result.isOk ∧
      ∃ d, Directive.ofLine? v.tree.cwdPath v.file v.target
          "include::a.adoc[confluence=include]".toList = some d ∧
        d.promotes? v.tree = .ok false ∧
        (mixed.copyAt v v.file v.target).tree.exists? d.actual = .ok true ∧
        d.actual ∈ (mixed.found v).targets.keys ∧
      ∃ d', Directive.ofLine? v.tree.cwdPath v.file v.target
          "include::b.adoc[confluence=include]".toList = some d' ∧
        d'.promotes? v.tree = .ok false ∧
        (mixed.copyAt v v.file v.target).tree.exists? d'.actual = .ok true ∧
        d'.actual ∉ (mixed.found v).targets.keys := by
  have hvisit : ((mixed.visits mixedTree).any fun v =>
      let marked (line : Text) (paged : Bool) : Bool :=
        (Directive.ofLine? v.tree.cwdPath v.file v.target line).any fun d =>
          decide (d.promotes? v.tree = .ok false) &&
            decide ((mixed.copyAt v v.file v.target).tree.exists? d.actual = .ok true) &&
            decide (d.actual ∈ (mixed.found v).targets.keys) == paged
      (mixed.found v).result.isOk && marked "include::a.adoc[confluence=include]".toList true &&
        marked "include::b.adoc[confluence=include]".toList false) = true := by
    decide +kernel
  obtain ⟨v, hv, hvisit⟩ := List.any_eq_true.1 hvisit
  simp only [Bool.and_eq_true, Option.any_eq_true, decide_eq_true_eq, beq_iff_eq,
    decide_eq_false_iff_not] at hvisit
  obtain ⟨⟨hdone, d, hd, ⟨hkept, hthere⟩, hpaged⟩, d', hd', ⟨hkept', hthere'⟩, hother⟩ := hvisit
  exact ⟨v, hv, hdone, d, hd, hkept, hthere, hpaged, d', hd', hkept', hthere', hother⟩

/-- Of two lines that are to stay, one is taken out and the other gets the path from the copy. -/
theorem mixed_kept_directive :
    ∃ v ∈ mixed.visits mixedTree, ∃ page d d', (mixed.found v).result = .ok page ∧
      let c := mixed.copyAt v v.file v.target
      let g := Reference.inclusion.grammar
      let taken : Text := "include::a.adoc[confluence=include]".toList
      let staying : Text := "include::b.adoc[confluence=include]".toList
      (Directive.ofLine? v.tree.cwdPath v.file v.target taken = some d ∧
        d.promotes? v.tree = .ok false ∧ c.tree.exists? d.actual = .ok true ∧ mixed.Sought v d ∧
        ∃ m rest, g.match? taken = some m ∧ taken = g.textOf m ++ rest ∧
          (Relink.line c [.inclusion] taken).2 = .ok rest ∧
          (Relink.line c Reference.all taken).2 = (Relink.line c Reference.later rest).2) ∧
      (Directive.ofLine? v.tree.cwdPath v.file v.target staying = some d' ∧
        d'.promotes? v.tree = .ok false ∧ c.tree.exists? d'.actual = .ok true ∧
        ¬ mixed.Sought v d' ∧
        ∃ m rest, g.match? staying = some m ∧ staying = g.textOf m ++ rest ∧
          (Relink.line c [.inclusion] staying).2 =
            .ok (g.render (c.way m) m.trailing ++ rest) ∧
          (Relink.line c Reference.all staying).2 =
            (Relink.line c Reference.later (g.render (c.way m) m.trailing ++ rest)).2) := by
  obtain ⟨v, hv, hdone, d, hd, hkept, hthere, hpaged, d', hd', hkept', hthere', hother⟩ :=
    mixed_directives
  obtain ⟨page, hpage⟩ := Search.exists_ok_of_isOk hdone
  have hsought : mixed.Sought v d := (mem_keys_iff_sought hpage hkept).1 hpaged
  have hunsought : ¬ mixed.Sought v d' := fun h => hother ((mem_keys_iff_sought hpage hkept').2 h)
  obtain ⟨m, rest, hm, hline, -, htaken⟩ := kept_directive hpage hd hkept hthere
  obtain ⟨m', rest', hm', hline', hstaying, -⟩ := kept_directive hpage hd' hkept' hthere'
  exact ⟨v, hv, page, d, d', hpage,
    ⟨hd, hkept, hthere, hsought, m, rest, hm, hline, htaken hsought⟩,
    ⟨hd', hkept', hthere', hunsought, m', rest', hm', hline', hstaying hunsought⟩⟩

/-- A document that includes another one twice, the second time in its place. -/
def doubletTree : FileTree :=
  .ofFiles [("/src/index.adoc", "include::a.adoc[]\ninclude::a.adoc[confluence=include]\n"),
    ("/src/a.adoc", "= A\n")]

/-- A build of this document below `/work`. -/
def doublet : Build :=
  ⟨Path.absolute doubletTree.cwdPath (.ofText "/src/index.adoc".toList),
    Path.absolute doubletTree.cwdPath (.ofText "/work".toList), .empty, "utf-8".toList, [], none⟩

/-- The second line of the document. -/
def doubletLine : Text := "include::a.adoc[confluence=include]".toList

/-- The second line has a directive that makes no page, and is taken out. -/
theorem doublet_directive :
    ∃ v ∈ doublet.visits doubletTree, (doublet.found v).result.isOk ∧
      ∃ d, Directive.ofLine? v.tree.cwdPath v.file v.target doubletLine = some d ∧
        d.promotes? v.tree = .ok false ∧
        (doublet.copyAt v v.file v.target).tree.exists? d.actual = .ok true ∧
        (Relink.line (doublet.copyAt v v.file v.target) [.inclusion] doubletLine).2 = .ok [] := by
  have hvisit : ((doublet.visits doubletTree).any fun v => (doublet.found v).result.isOk &&
      (Directive.ofLine? v.tree.cwdPath v.file v.target doubletLine).any fun d =>
        decide (d.promotes? v.tree = .ok false) &&
          decide ((doublet.copyAt v v.file v.target).tree.exists? d.actual = .ok true) &&
          decide ((Relink.line (doublet.copyAt v v.file v.target) [.inclusion] doubletLine).2 =
            .ok [])) = true := by
    decide +kernel
  obtain ⟨v, hv, hvisit⟩ := List.any_eq_true.1 hvisit
  simp only [Bool.and_eq_true, Option.any_eq_true, decide_eq_true_eq] at hvisit
  obtain ⟨hdone, d, hd, ⟨hkept, hthere⟩, hline⟩ := hvisit
  exact ⟨v, hv, hdone, d, hd, hkept, hthere, hline⟩

/-- **A line that is to stay is taken out**, since the line before it makes a page of the same
document. -/
theorem doublet_loses_line :
    let p := doublet.run doubletTree
    let file : Path := .ofText "/src/index.adoc".toList
    let target : Path := .ofText "/work/index.adoc".toList
    doublet.Live ∧ p.result.isOk = true ∧
      .kept "a.adoc".toList (.ofText "/src/a.adoc".toList) file target ∈ p.events ∧
      p.tree.entryAt target.location = some (.file [10, 10]) ∧
      ∃ v ∈ doublet.visits doubletTree,
        ∃ d, Directive.ofLine? v.tree.cwdPath v.file v.target doubletLine = some d ∧
          d.promotes? v.tree = .ok false ∧
          (doublet.copyAt v v.file v.target).tree.exists? d.actual = .ok true ∧
          (Relink.line (doublet.copyAt v v.file v.target) [.inclusion] doubletLine).2 = .ok [] := by
  intro p file target
  have hlive : doublet.Live := .of_isOk (by decide +kernel)
  have hdone : p.result.isOk = true := by decide +kernel
  have hevent : .kept "a.adoc".toList (.ofText "/src/a.adoc".toList) file target ∈ p.events := by
    decide +kernel
  have hcopy : p.tree.entryAt target.location = some (.file [10, 10]) := by decide +kernel
  obtain ⟨v, hv, -, hline⟩ := doublet_directive
  exact ⟨hlive, hdone, hevent, hcopy, v, hv, hline⟩

end Build

end Folio
