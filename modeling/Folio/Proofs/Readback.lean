import Folio.Relink
import Folio.Proofs.Normal
import Folio.Proofs.Places
import Folio.Proofs.Redirect
import Mathlib.Data.List.Forall2

/-!
# References read back from a copy

A line of a copy is read again, by the grammar for whose references it has been changed.

**Theorem (`Copy.line_reads_back`).** The matches in the new line are, one by one, the matches of
the old line that were not taken out. A match for a file without a target now has a path that leads
from the copy to the same file; all others are as they were.

The proof puts the new line together from the pieces of the old one: a match is taken out, left
alone or given another path (`Copy.turned`). By `Grammar.scanned_map` these are the pieces that the
grammar finds, and by `Path.refer_relativeTo` the other path leads back.

Three things can go wrong, and `references_lost` has lines for each of them:

* *legibility*: a directory has a name with a character that means something to the grammar, or the
  document and its copy start at different roots (`Copy.Legible`),
* *joints*: what stood on either side of a match that was taken out is a match when put together,
* *openings*: a cross-reference has its closing sign in its path, and in front of it stands an
  opening that this sign kept from being a match (`Copy.Opened`).
-/

namespace Folio

/-! ## Texts -/

namespace Text

theorem trim_of_no_blank {s : Text} (h : ∀ c ∈ s, isBlank c = false) : trim s = s := by
  have hdrop : ∀ {u : Text}, (∀ c ∈ u, isBlank c = false) → u.dropWhile isBlank = u := by
    intro u hu
    cases u with
    | nil => rfl
    | cons c u => simp [hu c List.mem_cons_self]
  rw [trim, trimLeft, hdrop h, trimRight, hdrop (fun c hc => h c (List.mem_reverse.1 hc)),
    List.reverse_reverse]

end Text

theorem Path.toText_ne_nil (p : Path) : p.toText ≠ [] := by
  intro h
  have hp := Path.ofText_toText p
  rw [h] at hp
  rw [← hp] at h
  exact absurd h (by decide)

/-! ## Matches with another path -/

namespace Grammar

/-- The match of a piece, if it is one. -/
def Piece.hit? : Piece → Option Match
  | .plain _ => none
  | .hit m => some m

/-- The matches of a line, from left to right. -/
def hits (g : Grammar) (line : Text) : List Match := (g.pieces line).filterMap Piece.hit?

def redirect : Grammar → Text → Match → Match
  | imagesDirectory, path, m => ⟨imagesDirectoryToken, ' ' :: path, m.trailing⟩
  | tokens t, path, m => ⟨t.start, path, m.trailing⟩

/-- The path can be read back when it has been written into a match. -/
def Takes : Grammar → Text → Prop
  | imagesDirectory, path => ∀ c ∈ path, isBlank c = false
  | tokens t, path =>
      (∀ c ∈ path, c ∉ t.refEnd) ∧ Text.trim path = path ∧
        (t.guarded = true → path.head? ≠ some ':')

theorem textOf_redirect (g : Grammar) (path : Text) (m : Match) :
    g.textOf (g.redirect path m) = g.render path m.trailing := by
  cases g with
  | imagesDirectory => simp [textOf, redirect, render, toTokens, Tokens.write]
  | tokens t => rfl

theorem Takes.trim_redirect {g : Grammar} {path : Text} (h : g.Takes path) (m : Match) :
    Text.trim (g.redirect path m).path = path := by
  cases g with
  | imagesDirectory =>
      have hblank : isBlank ' ' = true := by decide
      rw [redirect, Text.trim, Text.trimLeft, List.dropWhile_cons_of_pos hblank]
      exact Text.trim_of_no_blank h
  | tokens t => exact h.2.1

theorem Takes.reads_redirect {g : Grammar} {path : Text} (h : g.Takes path) (hpath : path ≠ [])
    {m : Match} (hm : g.Reads m) : g.Reads (g.redirect path m) := by
  cases g with
  | imagesDirectory =>
      have hblank : ∀ c ∈ [' '], isBlank c = true := List.forall_mem_singleton.2 (by decide)
      exact ⟨rfl, ⟨[' '], path, rfl, hblank, hpath, h⟩, hm.trailing, hm.blank⟩
  | tokens t =>
      refine ⟨rfl, h.1, hm.trailing, fun hg => ?_⟩
      obtain ⟨c, path, rfl⟩ := List.exists_cons_of_ne_nil hpath
      exact h.2.2 hg

theorem Scanned.reads {g : Grammar} (hg : g.Solid) {first : Bool} {ps : List Piece}
    (hps : g.Scanned first ps) {m : Match} (hm : .hit m ∈ ps) : g.Reads m := by
  rw [← piecesFrom_of_scanned hg hps] at hm
  obtain ⟨s, hs⟩ := match?_of_hit_mem hm
  cases g with
  | imagesDirectory => exact (imagesDirectoryMatch?_eq_some_iff.1 hs).1
  | tokens t => exact ((Tokens.match?_eq_some_iff hg).1 hs).1

theorem hits_of_scanned {g : Grammar} (hg : g.Solid) {ps : List Piece}
    (hps : g.Scanned true ps) : g.hits (g.text ps) = ps.filterMap Piece.hit? := by
  rw [hits, (pieces_eq_iff hg).2 ⟨rfl, hps⟩]

theorem filterMap_hit?_map (f : Match → Match) (ps : List Piece) :
    (ps.map (Piece.map f)).filterMap Piece.hit? = (ps.filterMap Piece.hit?).map f := by
  induction ps with
  | nil => rfl
  | cons p ps ih => cases p <;> simp [Piece.map, Piece.hit?, List.filterMap_cons, ih]

end Grammar

theorem Reference.grammar_apart (kind : Reference) : kind.grammar.Apart := by
  cases kind <;>
    first
    | trivial
    | exact ⟨⟨by simp, by simp, by simp⟩, by simp, by simp, by simp⟩

/-- Only a cross-reference can have a part of its closing token in its path. -/
theorem Reference.grammar_closes {kind : Reference} {m : Match} (hm : kind.grammar.Reads m)
    (hpath : kind = .crossReference → '>' ∉ m.path) : kind.grammar.Closes m := by
  have hapart := kind.grammar_apart
  cases kind with
  | imagesDirectory => trivial
  | crossReference =>
      refine Tokens.Apart.closes hapart hm fun c hc hclose => absurd hc ?_
      obtain rfl : c = '>' := by simpa using hclose
      exact hpath rfl
  | _ =>
      refine Tokens.Apart.closes hapart hm fun c _ hclose => ?_
      rw [List.mem_singleton] at hclose
      rw [hclose]

/-! ## A line of a copy -/

namespace Copy

variable {c : Copy} {kind : Reference}

/-- The place that a match in the document denotes. -/
def denotes (c : Copy) (m : Match) : Path := Document.refer c.file (Text.trim m.path)

/-- Whether there is something at the place that a match denotes. -/
def finds (c : Copy) (m : Match) : Bool := (c.tree.exists? (c.denotes m)).toOption == some true

/-- Whether a match is taken out: what it denotes has a target. -/
def removes (c : Copy) (m : Match) : Bool :=
  c.finds m && (c.targets.get? (c.denotes m)).isSome

/-- Whether a match gets another path: what it denotes has no target. -/
def repoints (c : Copy) (m : Match) : Bool :=
  c.finds m && (c.targets.get? (c.denotes m)).isNone

/-- The way from the directory of the copy to the place that a match denotes. -/
def way (c : Copy) (m : Match) : Text :=
  (Path.relativeTo c.tree.cwdPath c.target.parent (c.denotes m)).toText

/-- What becomes of a match that is not taken out. -/
def turned (c : Copy) (kind : Reference) (m : Match) : Match :=
  if c.repoints m then kind.grammar.redirect (c.way m) m else m

/-- The piece is not taken out. -/
def keeps (c : Copy) : Grammar.Piece → Bool
  | .plain _ => true
  | .hit m => !c.removes m

/-- The pieces of a line that are not taken out. -/
def kept (c : Copy) (kind : Reference) (line : Text) : List Grammar.Piece :=
  (kind.grammar.pieces line).filter c.keeps

/-- The match in the copy stands for the match in the document: it denotes the same place from
there, with the same further text, or it is the same match if there is nothing at that place. -/
def Counterpart (c : Copy) (m m' : Match) : Prop :=
  if c.repoints m then
    Document.refer c.target (Text.trim m'.path) = c.denotes m ∧ m'.trailing = m.trailing
  else m' = m

instance (c : Copy) (m m' : Match) : Decidable (c.Counterpart m m') :=
  inferInstanceAs (Decidable (if c.repoints m then
    Document.refer c.target (Text.trim m'.path) = c.denotes m ∧ m'.trailing = m.trailing
  else m' = m))

/-- A match that gets another path can be read back with it. -/
structure Legible (c : Copy) (kind : Reference) (m : Match) : Prop where
  takes : kind.grammar.Takes (c.way m)
  root : (c.denotes m).anchor = c.target.anchor

/-- An opening stands in front of the match, with nothing but characters outside of matches between
the two. -/
def Opened (c : Copy) (kind : Reference) (line : Text) (m : Match) : Prop :=
  ∃ u, (kind.grammar.toTokens.start ++ u).map .plain ++ [.hit m] <:+: c.kept kind line

/-! ## The new line -/

-- Nothing here depends on how a path is looked up.
attribute [local irreducible] FileTree.exists?

theorem match?_eq (c : Copy) (kind : Reference) (m : Match) :
    Relink.match? c kind m =
      match c.tree.exists? (c.denotes m) with
      | .error f => .error f
      | .ok false =>
          .ok (.missing (Text.trim m.path) (c.denotes m) c.file c.target kind,
            kind.grammar.textOf m)
      | .ok true =>
          .ok (.repointed (Text.trim m.path) (c.denotes m) (Path.relativeTo c.tree.cwdPath
              c.target.parent ((c.targets.get? (c.denotes m)).getD (c.denotes m))) c.file c.target
              kind,
            if (c.targets.get? (c.denotes m)).isSome then []
            else kind.grammar.render (Path.relativeTo c.tree.cwdPath c.target.parent
              ((c.targets.get? (c.denotes m)).getD (c.denotes m))).toText m.trailing) := rfl

theorem finds_eq_of_exists? {m : Match} {found : Bool}
    (h : c.tree.exists? (c.denotes m) = .ok found) : c.finds m = found := by
  rw [finds, h]
  cases found <;> rfl

/-- **A match is taken out or turned.** -/
theorem match?_eq_ok {m : Match} {e : Event} {s : Text}
    (h : Relink.match? c kind m = .ok (e, s)) :
    c.removes m = true ∧ s = [] ∨
      c.removes m = false ∧ s = kind.grammar.textOf (c.turned kind m) := by
  rw [match?_eq] at h
  split at h
  · exact absurd h (by simp)
  · next hex =>
      have hfinds := finds_eq_of_exists? hex
      rw [Except.ok.injEq, Prod.mk.injEq] at h
      refine .inr ⟨by rw [removes, hfinds, Bool.false_and], ?_⟩
      rw [turned, repoints, hfinds, Bool.false_and, if_neg Bool.false_ne_true]
      exact h.2.symm
  · next hex =>
      have hfinds := finds_eq_of_exists? hex
      rw [Except.ok.injEq, Prod.mk.injEq] at h
      cases hmapped : c.targets.get? (c.denotes m) with
      | some there =>
          refine .inl ⟨by rw [removes, hfinds, hmapped]; rfl, ?_⟩
          rw [hmapped] at h
          exact h.2.symm
      | none =>
          refine .inr ⟨by rw [removes, hfinds, hmapped]; rfl, ?_⟩
          have hrepoints : c.repoints m = true := by
            rw [repoints, hfinds, hmapped]
            rfl
          rw [hmapped] at h
          rw [turned, if_pos hrepoints, Grammar.textOf_redirect]
          exact h.2.symm

attribute [local irreducible] Relink.match?

theorem pieces_hit (m : Match) (ps : List Grammar.Piece) :
    Relink.pieces c kind (.hit m :: ps) =
      match Relink.match? c kind m with
      | .error f => ([], .error f)
      | .ok (e, text) =>
          (e :: (Relink.pieces c kind ps).1, (Relink.pieces c kind ps).2.map (text ++ ·)) := rfl

/-- The new line is put together from the pieces that are kept. -/
theorem pieces_eq_ok {ps : List Grammar.Piece} {es : List Event} {out : Text}
    (h : Relink.pieces c kind ps = (es, .ok out)) :
    out = kind.grammar.text ((ps.filter c.keeps).map (.map (c.turned kind))) := by
  induction ps generalizing es out with
  | nil =>
      obtain ⟨-, hout⟩ := Prod.mk.inj h
      exact (Except.ok.inj hout).symm
  | cons p ps ih =>
      cases p with
      | plain x =>
          obtain ⟨s, hs, rfl⟩ := exists_of_map_eq_ok (Prod.mk.inj h).2
          rw [List.filter_cons_of_pos rfl, List.map_cons, Grammar.text_cons, ← ih (Prod.ext rfl hs)]
          rfl
      | hit m =>
          rw [pieces_hit] at h
          split at h
          · exact absurd h (by simp)
          · next e text hm =>
              rw [Prod.mk.injEq] at h
              obtain ⟨s, hs, rfl⟩ := exists_of_map_eq_ok h.2
              rw [ih (Prod.ext rfl hs)]
              rcases match?_eq_ok hm with ⟨hout, rfl⟩ | ⟨hin, rfl⟩
              · rw [List.filter_cons_of_neg (by simp [keeps, hout]), List.nil_append]
              · rw [List.filter_cons_of_pos (by simp [keeps, hin]), List.map_cons,
                  Grammar.text_cons]
                rfl

theorem line_eq_ok {line out : Text} (h : (Relink.line c [kind] line).2.toOption = some out) :
    out = kind.grammar.text ((c.kept kind line).map (.map (c.turned kind))) := by
  cases hp : Relink.pieces c kind (kind.grammar.pieces line) with
  | mk es r =>
      rw [Relink.line, hp] at h
      cases r with
      | error f => exact absurd h (by simp [Except.toOption])
      | ok s =>
          obtain rfl : s = out := by simpa [Relink.line, Except.toOption] using h
          exact pieces_eq_ok hp

/-- The matches that are kept are those that are not taken out. -/
theorem hits_kept (line : Text) :
    (c.kept kind line).filterMap Grammar.Piece.hit? =
      (kind.grammar.hits line).filter fun m => !c.removes m := by
  rw [kept, Grammar.hits]
  induction kind.grammar.pieces line with
  | nil => rfl
  | cons p ps ih =>
      cases p with
      | plain x =>
          rw [List.filter_cons_of_pos rfl]
          exact ih
      | hit m =>
          cases hm : c.removes m with
          | true =>
              rw [List.filter_cons_of_neg (by simp [keeps, hm]), ih]
              simp [Grammar.Piece.hit?, hm]
          | false =>
              rw [List.filter_cons_of_pos (by simp [keeps, hm])]
              simp [Grammar.Piece.hit?, hm, ih]

/-- If nothing is taken out, nothing is put together. -/
theorem joints_of_removes_nothing {line : Text}
    (h : ∀ m ∈ kind.grammar.hits line, c.removes m = false) :
    kind.grammar.pieces (kind.grammar.text (c.kept kind line)) = c.kept kind line := by
  have hkeeps : ∀ p ∈ kind.grammar.pieces line, c.keeps p = true := by
    intro p hp
    cases p with
    | plain x => rfl
    | hit m =>
        have hm : m ∈ kind.grammar.hits line := List.mem_filterMap.2 ⟨.hit m, hp, rfl⟩
        rw [keeps, h m hm]
        rfl
  have hkept : c.kept kind line = kind.grammar.pieces line := List.filter_eq_self.2 hkeeps
  rw [hkept, Grammar.text, Grammar.flatMap_pieceText_pieces]

/-! ## Reading back -/

theorem counterpart_turned {m : Match} (hm : c.repoints m = true → c.Legible kind m)
    (htarget : c.target.isAbsolute = true) : c.Counterpart m (c.turned kind m) := by
  unfold Counterpart turned
  split
  · next h =>
      obtain ⟨htakes, hroot⟩ := hm h
      have habs : (c.denotes m).isAbsolute = true := by
        rw [Path.isAbsolute, hroot]
        exact htarget
      have hnormal : (c.denotes m).Normal := Path.normalize_normal habs
      refine ⟨?_, by cases kind <;> rfl⟩
      rw [htakes.trim_redirect, way, Path.refer_relativeTo _ htarget hroot, hnormal.normalize_eq]
  · rfl

/-- **The references of a line read back from its copy.** If the line without the matches that are
taken out has no others than the remaining ones, these are legible, and no cross-reference behind an
opening has a closing sign in its path, then each match in the new line is the counterpart of one of
them. -/
theorem line_reads_back {line out : Text}
    (hout : (Relink.line c [kind] line).2.toOption = some out)
    (htarget : c.target.isAbsolute = true)
    (hjoints : kind.grammar.pieces (kind.grammar.text (c.kept kind line)) = c.kept kind line)
    (hlegible : ∀ m ∈ kind.grammar.hits line, c.repoints m = true → c.Legible kind m)
    (hopenings : kind = .crossReference → ∀ m, c.repoints m = true → c.Opened kind line m →
      '>' ∉ m.path) :
    List.Forall₂ c.Counterpart ((kind.grammar.hits line).filter fun m => !c.removes m)
      (kind.grammar.hits out) := by
  have hsolid := kind.grammar_solid
  have hscanned := ((Grammar.pieces_eq_iff hsolid).1 hjoints).2
  have hkept : ∀ m, .hit m ∈ c.kept kind line → c.repoints m = true → c.Legible kind m :=
    fun m hm => hlegible m
      (List.mem_filterMap.2 ⟨.hit m, (List.mem_filter.1 hm).1, rfl⟩)
  have hturned : kind.grammar.Scanned true ((c.kept kind line).map (.map (c.turned kind))) := by
    refine Grammar.scanned_map kind.grammar_apart hscanned (fun m hm => ?_) fun u m hu => ?_
    · have hread := hscanned.reads hsolid hm
      unfold turned
      split
      · next h => exact (hkept m hm h).takes.reads_redirect (Path.toText_ne_nil _) hread
      · exact hread
    · by_cases hrepoints : c.repoints m = true
      · by_cases hstart : kind.grammar.toTokens.start <+: u
        · obtain ⟨v, rfl⟩ := hstart
          have hread := hscanned.reads hsolid (hu.subset (by simp) : .hit m ∈ c.kept kind line)
          exact .inr (.inl (Reference.grammar_closes hread fun hkind =>
            hopenings hkind m hrepoints ⟨v, hu⟩))
        · exact .inr (.inr hstart)
      · exact .inl (if_neg hrepoints)
  rw [line_eq_ok hout, Grammar.hits_of_scanned hsolid hturned, Grammar.filterMap_hit?_map,
    hits_kept, List.forall₂_map_right_iff, List.forall₂_same]
  intro m hm
  exact counterpart_turned (hlegible m (List.mem_filter.1 hm).1) htarget

/-- A document and its copy, among pictures in directories with unusual names. -/
def album (file target : String) : Copy where
  tree := .ofFiles [("/docs/p.png", ""), ("/docs/part.adoc", ""), ("/docs/s[x]/p.png", ""),
    ("/docs/:x/p.png", ""), ("/docs/ x/p.png", "")]
  targets := .insert .empty (.ofText "/docs/part.adoc".toList) (.ofText "/work/part.adoc".toList)
  file := .ofText file.toList
  target := .ofText target.toList

/-- A line with a match that is taken out, one with another path and one that stays. -/
def albumLine : Text := "link:part.adoc[]link:p.png[P] link:gone.png[]".toList

theorem album_line_reads_back :
    let c := album "/docs/a.adoc" "/work/a.adoc"
    let out := "link:../docs/p.png[P] link:gone.png[]".toList
    ((Relink.line c [.link] albumLine).2.toOption = some out ∧ c.target.isAbsolute = true ∧
      Reference.link.grammar.pieces (Reference.link.grammar.text (c.kept .link albumLine)) =
        c.kept .link albumLine ∧
      (∀ m ∈ Reference.link.grammar.hits albumLine, c.repoints m = true → c.Legible .link m) ∧
      (Reference.link = .crossReference → ∀ m, c.repoints m = true → c.Opened .link albumLine m →
        '>' ∉ m.path)) ∧
    List.Forall₂ c.Counterpart
      ((Reference.link.grammar.hits albumLine).filter fun m => !c.removes m)
      (Reference.link.grammar.hits out) := by
  intro c out
  have hout : (Relink.line c [.link] albumLine).2.toOption = some out := by decide +kernel
  have htarget : c.target.isAbsolute = true := by decide +kernel
  have hjoints : Reference.link.grammar.pieces
      (Reference.link.grammar.text (c.kept .link albumLine)) = c.kept .link albumLine := by
    decide +kernel
  have hread : ∀ m ∈ Reference.link.grammar.hits albumLine, c.repoints m = true →
      ('[' ∉ c.way m ∧ Text.trim (c.way m) = c.way m ∧ (c.way m).head? ≠ some ':') ∧
        (c.denotes m).anchor = c.target.anchor := by
    decide +kernel
  have hlegible : ∀ m ∈ Reference.link.grammar.hits albumLine, c.repoints m = true →
      c.Legible .link m := by
    intro m hm hr
    obtain ⟨⟨hopen, htrim, hhead⟩, hroot⟩ := hread m hm hr
    have hfree : ∀ x ∈ c.way m, x ∉ ['['] := by
      intro x hx hx'
      exact hopen (List.mem_singleton.1 hx' ▸ hx)
    exact ⟨⟨hfree, htrim, fun _ => hhead⟩, hroot⟩
  exact ⟨⟨hout, htarget, hjoints, hlegible, nofun⟩,
    line_reads_back hout htarget hjoints hlegible nofun⟩

/-- The line becomes `out`, whose references are not the counterparts of those that are kept. -/
def Loses (c : Copy) (kind : Reference) (line out : String) : Prop :=
  c.file.isAbsolute = true ∧ c.target.isAbsolute = true ∧
    (Relink.line c [kind] line.toList).2.toOption = some out.toList ∧
    ¬ List.Forall₂ c.Counterpart
      ((kind.grammar.hits line.toList).filter fun m => !c.removes m) (kind.grammar.hits out.toList)

instance (c : Copy) (kind : Reference) (line out : String) : Decidable (c.Loses kind line out) :=
  inferInstanceAs (Decidable (_ ∧ _ ∧ _ ∧ _))

/-- Without the conditions on names, roots, joints and openings, in this order, references are
lost. -/
theorem references_lost :
    ((album "/docs/s[x]/a.adoc" "/work/a.adoc").Loses .imageBlock "image::p.png[]"
        "image::../docs/s[x]/p.png[]" ∧
      (album "/docs/ x/a.adoc" "/work/a.adoc").Loses .imagesDirectory ":imagesdir: p.png"
        ":imagesdir: ../docs/ x/p.png" ∧
      (album "/docs/a.adoc" "/docs/b.adoc").Loses .link "link:./:x/p.png[]" "link::x/p.png[]" ∧
      (album "/docs/s[x]/a.adoc" "/docs/b.adoc").Loses .link "link:../ x/p.png[]"
        "link: x/p.png[]") ∧
    (album "//docs/a.adoc" "/work/a.adoc").Loses .link "link:p.png[]" "link:../docs/p.png[]" ∧
    (album "/docs/a.adoc" "/work/a.adoc").Loses .link "lilink:part.adoc[]nk:p.png[]"
      "link:p.png[]" ∧
    (album "/docs/a.adoc" "/work/a.adoc").Loses .crossReference "<<a#,<<x>y/../p.png#,e>>"
      "<<a#,<<../docs/p.png#,e>>" := by
  decide +kernel

end Copy

end Folio
