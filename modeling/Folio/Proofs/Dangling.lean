import Folio.Proofs.Copies
import Folio.Proofs.Rereading

/-!
# References to nothing

A reference that leads to no file is left as it is, and told. Seven kinds of references are looked
for one after another, each in the line as the earlier ones left it. **If nothing stands at any
place that a reference denotes, every kind finds the same line** (`Relink.line_of_dangles`): so the
references that are told are those of the line itself, kind by kind, each with its path as it is
looked up.

A document with such references only is copied as it is, but for its attributes and its line ends
(`Relink.copy_of_dangles`). In the copy, each line ends with a line feed. So one comes behind the
text of the document, unless it is there or the document is empty (`Text.ofLines_map_lines`).

Main result: `Relink.copyAll_dangling`, for each document among all that are copied.
-/

namespace Folio

/-! ## A text with its lines changed -/

namespace Text

/-- What is missing behind a text so that each of its lines ends with a line feed. -/
def lastEnd (s : Text) : Text := if s = [] ∨ s.getLast? = some '\n' then [] else ['\n']

/-- The text with each of its lines changed, with line feeds for all line ends and one behind the
last line. -/
def changeLines (f : Text → Text) (s : Text) : Text :=
  join ['\n'] ((splitOn '\n' (unifyLineEnds s)).map f) ++ lastEnd (unifyLineEnds s)

theorem pieces_cons_of_ne_nil {c : Char} (hc : c ≠ '\n') {s l : Text} {ls : List Text}
    (h : pieces s = l :: ls) : pieces (c :: s) = (c :: l) :: ls := by
  rw [pieces, if_neg hc, h]

theorem pieces_ne_nil {s : Text} (hs : s ≠ []) : pieces s ≠ [] := by
  cases s with
  | nil => exact absurd rfl hs
  | cons c s =>
      rw [pieces]
      split
      · simp
      · split <;> simp

/-- Between line feeds there is one text more than there are lines, if the last line has ended. -/
theorem splitOn_eq_pieces_append (s : Text) :
    splitOn '\n' s = pieces s ++ if lastEnd s = [] then [[]] else [] := by
  induction s with
  | nil => rfl
  | cons c s ih =>
      by_cases hs : s = []
      · subst hs
        by_cases hc : c = '\n' <;> simp [splitOn, pieces, lastEnd, hc]
      · -- In front of others, a character does not change whether the last line has ended.
        have hend : lastEnd (c :: s) = lastEnd s := by
          obtain ⟨d, s, rfl⟩ := List.exists_cons_of_ne_nil hs
          simp [lastEnd, List.getLast?_cons_cons]
        obtain ⟨l, ls, hls⟩ := List.exists_cons_of_ne_nil (pieces_ne_nil hs)
        rw [hend]
        rw [hls, List.cons_append] at ih
        by_cases hc : c = '\n'
        · rw [splitOn, if_pos hc, pieces, if_pos hc, ih, hls]
          rfl
        · rw [splitOn, if_neg hc, ih, pieces_cons_of_ne_nil hc hls]
          rfl

theorem join_append_nil (ls : List Text) : join ['\n'] (ls ++ [[]]) = ofLines ls := by
  induction ls with
  | nil => rfl
  | cons l ls ih =>
      obtain ⟨q, ps, hq⟩ := List.exists_cons_of_ne_nil (l := ls ++ [[]]) (by simp)
      rw [List.cons_append, hq, join, ← hq, ih, ofLines, List.append_assoc]
      rfl

theorem join_append_end {ls : List Text} (hls : ls ≠ []) :
    join ['\n'] ls ++ ['\n'] = ofLines ls := by
  induction ls with
  | nil => exact absurd rfl hls
  | cons l ls ih =>
      cases ls with
      | nil => rfl
      | cons q ps =>
          rw [join, List.append_assoc, ih (by simp), ofLines, List.append_assoc]
          rfl

/-- **The text of the changed lines** is the text with its lines changed. -/
theorem ofLines_map_lines {f : Text → Text} (hf : f [] = []) (s : Text) :
    ofLines (s.lines.map f) = changeLines f s := by
  rw [changeLines, splitOn_eq_pieces_append, lines, List.map_append]
  by_cases hend : lastEnd (unifyLineEnds s) = []
  · -- Nothing comes behind the last line feed, and nothing is made of it.
    rw [if_pos hend, hend, List.append_nil, List.map_singleton, hf, join_append_nil]
  · have hs : unifyLineEnds s ≠ [] := fun hnil => hend (by rw [hnil]; rfl)
    have hfeed : lastEnd (unifyLineEnds s) = ['\n'] := by
      rw [lastEnd] at hend ⊢
      split
      · next h => exact absurd (if_pos h) hend
      · rfl
    rw [if_neg hend, hfeed, List.map_nil, List.append_nil, join_append_end]
    simpa using pieces_ne_nil hs

end Text

/-! ## A line -/

namespace Copy

/-- Nothing stands at any place that a reference in the line denotes. -/
def Dangles (c : Copy) (line : Text) : Prop :=
  ∀ kind ∈ Reference.all, ∀ m ∈ kind.grammar.hits line, c.tree.exists? (c.denotes m) = .ok false

/-- The events for the references in a line, if none of them leads to anything: kind after kind, and
from left to right for each kind. -/
def missings (c : Copy) (kinds : List Reference) (line : Text) : List Event :=
  kinds.flatMap fun kind => (kind.grammar.hits line).map fun m =>
    .missing (Text.trim m.path) (c.denotes m) c.file c.target kind

instance (c : Copy) (line : Text) : Decidable (c.Dangles line) :=
  inferInstanceAs (Decidable (∀ _ ∈ _, _))

end Copy

namespace Relink

variable {c : Copy} {kind : Reference}

theorem pieces_of_dangles {ps : List Grammar.Piece}
    (h : ∀ m ∈ ps.filterMap Grammar.Piece.hit?, c.tree.exists? (c.denotes m) = .ok false) :
    pieces c kind ps =
      ((ps.filterMap Grammar.Piece.hit?).map fun m =>
        .missing (Text.trim m.path) (c.denotes m) c.file c.target kind,
      .ok (kind.grammar.text ps)) := by
  induction ps with
  | nil => rfl
  | cons piece ps ih =>
      cases piece with
      | plain a =>
          rw [pieces_cons_plain, ih h]
          rfl
      | hit m =>
          have h' : ∀ n ∈ m :: ps.filterMap Grammar.Piece.hit?,
              c.tree.exists? (c.denotes n) = .ok false := h
          rw [List.forall_mem_cons] at h'
          rw [Copy.pieces_hit, Copy.match?_eq, h'.1, ih h'.2]
          rfl

/-- **A line whose references lead to nothing stays as it is.** -/
theorem line_of_dangles {kinds : List Reference} {s : Text}
    (h : ∀ kind ∈ kinds, ∀ m ∈ kind.grammar.hits s, c.tree.exists? (c.denotes m) = .ok false) :
    line c kinds s = (c.missings kinds s, .ok s) := by
  induction kinds with
  | nil => rfl
  | cons kind kinds ih =>
      rw [List.forall_mem_cons] at h
      have hpieces : pieces c kind (kind.grammar.pieces s) = (c.missings [kind] s, .ok s) := by
        rw [pieces_of_dangles h.1, Grammar.text, Grammar.flatMap_pieceText_pieces, Copy.missings,
          List.flatMap_singleton]
        rfl
      -- The next kind is given the same line.
      rw [line, hpieces]
      simp only [ih h.2]
      rw [Copy.missings, List.flatMap_singleton]
      rfl

theorem lines_of_dangles {attributes : Attributes} {ls : List Text}
    (h : ∀ l ∈ ls, c.Dangles (attributes.substitute l)) :
    lines c Reference.all attributes ls =
      (ls.flatMap fun l => c.missings Reference.all (attributes.substitute l),
        .ok (ls.map attributes.substitute)) := by
  induction ls with
  | nil => rfl
  | cons l ls ih =>
      rw [List.forall_mem_cons] at h
      rw [lines, line_of_dangles h.1]
      simp only [ih h.2]
      rfl

end Relink

/-! ## A document -/

namespace Document

/-- The file at the path is a document with this text, in the encoding of this name. -/
def HasText (t : FileTree) (p : Path) (encoding s : Text) : Prop :=
  '\x00' ∉ encoding ∧ ∃ content e, t.readFile p = .ok content ∧
    Encoding.ofName? encoding = some e ∧ e.isText = true ∧ e.decode content = some s

/-- The file at the path has the bytes of this text, in the encoding of this name. -/
def HasBytesOf (t : FileTree) (p : Path) (encoding s : Text) : Prop :=
  ∃ content e, t.readFile p = .ok content ∧ Encoding.ofName? encoding = some e ∧
    e.encode s = some content

variable {t : FileTree} {p : Path} {encoding s : Text}

theorem HasText.read (h : HasText t p encoding s) : read t p encoding = .ok s.lines := by
  obtain ⟨hnull, content, e, hread, hname, htext, hdecode⟩ := h
  rw [read_eq_ok_iff]
  refine ⟨hnull, content, hread, ?_⟩
  rw [lines?, hname]
  simp only [htext, if_true, hdecode, Option.map_some]

/-- An empty text has no bytes, not even those of a mark. -/
theorem HasBytesOf.nil (h : HasBytesOf t p encoding []) : t.readFile p = .ok [] := by
  obtain ⟨content, e, hread, -, hbytes⟩ := h
  obtain ⟨b, hnil, rfl⟩ := Encoding.encode_eq_some hbytes
  rw [hread]
  cases e with
  | conversion => cases hnil
  | _ =>
      obtain rfl := Option.some.inj hnil
      rfl

theorem hasBytesOf_write {lines : List Text} (h : (write t p encoding lines).2 = .ok ()) :
    HasBytesOf (write t p encoding lines).1 p encoding (.ofLines lines) := by
  obtain ⟨content, ⟨-, e, hname, -, hbytes⟩, hread⟩ := readFile_of_write h
  exact ⟨content, e, hread, hname, hbytes⟩

end Document

/-! ## A copy -/

namespace Relink

variable {how : Copying} {targets : Targets} {skip : List Path} {t : FileTree}
  {file target : Path} {s : Text}

theorem copy_of_dangles (hkinds : how.kinds = Reference.all)
    (hs : Document.HasText t file how.encoding s)
    (h : ∀ l ∈ s.lines, Copy.Dangles ⟨t, targets, file, target⟩ (how.attributes.substitute l)) :
    copy how targets file target t =
      ⟨(Document.write t target how.encoding (s.lines.map how.attributes.substitute)).1,
        .copied file target :: s.lines.flatMap fun l =>
          Copy.missings ⟨t, targets, file, target⟩ Reference.all (how.attributes.substitute l),
        (Document.write t target how.encoding (s.lines.map how.attributes.substitute)).2⟩ := by
  rw [copy, hs.read, hkinds]
  simp only [lines_of_dangles h]

theorem substitute_nil (a : Attributes) : a.substitute [] = [] := by
  rw [Attributes.substitute]
  induction a.entries with
  | nil => rfl
  | cons e es ih => exact ih

/-- The copy has the bytes of the document's text, with its lines changed. -/
theorem copy_hasBytesOf (hkinds : how.kinds = Reference.all)
    (hs : Document.HasText t file how.encoding s)
    (h : ∀ l ∈ s.lines, Copy.Dangles ⟨t, targets, file, target⟩ (how.attributes.substitute l))
    (hok : (copy how targets file target t).result = .ok ()) :
    Document.HasBytesOf (copy how targets file target t).tree target how.encoding
      (Text.changeLines how.attributes.substitute s) := by
  rw [copy_of_dangles hkinds hs h] at hok ⊢
  rw [← Text.ofLines_map_lines (substitute_nil _)]
  exact Document.hasBytesOf_write hok

/-- **Documents whose references lead to nothing.** In a line, with all kinds of references looked
for, nothing is changed, and what is told are its references, kind after kind. Among all documents
that are copied, such a document is copied as its text with the attributes substituted in each line,
with line feeds for all line ends and one behind the last line; an empty document as an empty file.
Nothing but the writing of the copy can fail. -/
theorem copyAll_dangling :
    (∀ (c : Copy) (text : Text), c.Dangles text →
      line c Reference.all text = (c.missings Reference.all text, .ok text)) ∧
    ∀ (how : Copying) (targets : Targets) (skip : List Path) (t : FileTree)
      (before after : List (Path × Path)) (file target : Path) (s : Text),
      how.kinds = Reference.all → targets.entries = before ++ (file, target) :: after →
      target ∉ skip →
      let u := (copyEach how targets skip before t).tree
      let c : Copy := ⟨u, targets, file, target⟩
      let subst := how.attributes.substitute
      Document.HasText u file how.encoding s → (∀ l ∈ s.lines, c.Dangles (subst l)) →
      let o := copyEach how targets skip [(file, target)] u
      let w := Document.write u target how.encoding (s.lines.map subst)
      copyAll how targets skip t =
        ((copyEach how targets skip before t).andThen
          (copyEach how targets skip [(file, target)])).andThen (copyEach how targets skip after) ∧
      o = ⟨w.1, .copied file target :: s.lines.flatMap fun l => c.missings Reference.all (subst l),
        w.2.map fun _ => [target]⟩ ∧
      (w.2 = .ok () →
        Document.HasBytesOf o.tree target how.encoding (Text.changeLines subst s) ∧
        (s = [] → o.tree.readFile target = .ok [])) := by
  refine ⟨fun c text h => line_of_dangles h, ?_⟩
  intro how targets skip t before after file target s hkinds hentries hskip u c subst hs hlines o w
  have hcopy := copy_of_dangles hkinds hs hlines
  have hone : o = ⟨(copy how targets file target u).tree, (copy how targets file target u).events,
      (copy how targets file target u).result.map fun _ => [target]⟩ := copyEach_singleton hskip
  refine ⟨?_, by rw [hone, hcopy], fun hok => ?_⟩
  · rw [copyAll, hentries, List.append_cons, copyEach_append_eq, copyEach_append_eq]
  · have hbytes : Document.HasBytesOf o.tree target how.encoding (Text.changeLines subst s) := by
      rw [hone]
      exact copy_hasBytesOf hkinds hs hlines (by rw [hcopy]; exact hok)
    refine ⟨hbytes, ?_⟩
    rintro rfl
    have hempty : Text.changeLines subst [] = [] :=
      (Text.ofLines_map_lines (substitute_nil _) []).symm
    exact (hempty ▸ hbytes).nil

/-- A document with all line ends, but none at its last line, which is copied behind another. -/
theorem copyAll_dangling_ends :
    let p (name : String) : Path := .ofText name.toList
    let text := "image:{n}.png[] <<c.adoc#,{n}>>\r\n\r{n}\nlink: gone[G]"
    let t : FileTree := .ofFiles [("/src/a.adoc", ""), ("/src/b.adoc", text)]
    let how : Copying := ⟨.ofList [("n".toList, "pic".toList)], "utf-8".toList, Reference.all⟩
    let first := (p "/src/a.adoc", p "/work/a.adoc")
    let second := (p "/src/b.adoc", p "/work/b.adoc")
    let targets : Targets := .ofList [first, second]
    let u := (copyEach how targets [] [first] t).tree
    (Document.HasText u second.1 how.encoding text.toList ∧
      ∀ l ∈ Text.lines text.toList, Copy.Dangles ⟨u, targets, second.1, second.2⟩
        (how.attributes.substitute l)) ∧
    Document.HasBytesOf (copyEach how targets [] [second] u).tree second.2 how.encoding
      "image:pic.png[] <<c.adoc#,pic>>\n\npic\nlink: gone[G]\n".toList := by
  intro p text t how first second targets u
  have hdocument : Document.HasText u second.1 how.encoding text.toList :=
    ⟨by decide, text.toList.map fun c => .ofNat c.toNat, .utf8, by decide +kernel,
      by decide +kernel, rfl, by decide +kernel⟩
  have hlines : ∀ l ∈ Text.lines text.toList, Copy.Dangles ⟨u, targets, second.1, second.2⟩
      (how.attributes.substitute l) := by
    decide +kernel
  have hentries : targets.entries = [first] ++ second :: [] := by decide +kernel
  have hwrite : (Document.write u second.2 how.encoding
      ((Text.lines text.toList).map how.attributes.substitute)).2 = .ok () := by
    decide +kernel
  have htext : Text.changeLines how.attributes.substitute text.toList =
      "image:pic.png[] <<c.adoc#,pic>>\n\npic\nlink: gone[G]\n".toList := by
    decide +kernel
  obtain ⟨-, -, hcopy⟩ := copyAll_dangling.2 how targets [] t [first] [] second.1 second.2
    text.toList rfl hentries List.not_mem_nil hdocument hlines
  have hbytes := (hcopy hwrite).1
  rw [htext] at hbytes
  exact ⟨⟨hdocument, hlines⟩, hbytes⟩

end Relink

end Folio
