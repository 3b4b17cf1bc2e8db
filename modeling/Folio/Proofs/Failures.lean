import Folio.Proofs.NullFree
import Folio.Proofs.Replay

/-!
# How a build fails

Reading and writing report what goes wrong, and so do the checks of the places of a build. A
question about a path has no message of its own: where it cannot be told whether something stands at
a path, the failure is passed on as it is.

**Theorem (`Build.error_reported`).** This is the only failure of a run that is not reported: the
run has come to a path that is too long for the file tree to tell anything about it, and it stops
there. The path is that of the source, of an entry of its directory, of an including line of some
document, or of a reference in some document that is being copied (`Build.Consults`). No run is
endless, and none stumbles over a null character, as long as its source and its working directory
have none.

A reference with a long name in a document does end a run without a message
(`Build.lengthy_unreported`).
-/

namespace Folio

open FileTree

/-! ## Questions without an answer -/

namespace FileTree

variable {t : FileTree} {p : Path}

/-- A question fails only where the tree cannot tell what stands at the path. -/
theorem map_status?_error {α : Type} {g : Option Entry → α} {f : Fault}
    (h : (t.status? p).map g = .error f) : f = .tooLong ∧ ¬ t.Answers p := by
  have hstatus := error_of_map_eq_error h
  refine ⟨status?_error hstatus, ?_⟩
  rw [Answers, hstatus]
  exact Bool.false_ne_true

end FileTree

theorem Document.isPage?_error {t : FileTree} {p : Path} {f : Fault} (h : isPage? t p = .error f) :
    f = .tooLong ∧ ¬ t.Answers p := by
  rw [isPage?] at h
  split at h
  · exact map_status?_error h
  · exact absurd h (by simp)

theorem Directive.promotes?_error {t : FileTree} {d : Directive} {f : Fault}
    (h : d.promotes? t = .error f) : d.asks = true ∧ f = .tooLong ∧ ¬ t.Answers d.actual := by
  refine ⟨?_, ?_⟩
  · cases hasks : d.asks with
    | true => rfl
    | false =>
        rw [promotes?_of_not_asks hasks] at h
        exact absurd h (by simp)
  · rw [promotes?] at h
    split at h
    · exact absurd h (by simp)
    · exact Document.isPage?_error h

/-! ## Copies -/

namespace Relink

/-- A reference with this path is looked up when the document is copied: in one of its lines, as it
is when some kind of reference is looked for, there is a match of this kind. -/
def Mentions (how : Copying) (c : Copy) (p : Path) : Prop :=
  ∃ ls, Document.read c.tree c.file how.encoding = .ok ls ∧ ∃ l ∈ ls,
    ∃ before kind after s, how.kinds = before ++ kind :: after ∧
      (line c before (how.attributes.substitute l)).2 = .ok s ∧
      ∃ m, .hit m ∈ kind.grammar.pieces s ∧ c.denotes m = p

variable {how : Copying} {c : Copy} {kind : Reference} {f : Fault} {e : BuildError}

theorem match?_error {m : Match} (h : match? c kind m = .error f) :
    f = .tooLong ∧ ¬ c.tree.Answers (c.denotes m) := by
  rw [Copy.match?_eq] at h
  split at h
  · next g hexists =>
      obtain rfl := Except.error.inj h
      exact map_status?_error hexists
  · exact absurd h (by simp)
  · exact absurd h (by simp)

theorem pieces_error {ps : List Grammar.Piece} (h : (pieces c kind ps).2 = .error f) :
    ∃ m, .hit m ∈ ps ∧ f = .tooLong ∧ ¬ c.tree.Answers (c.denotes m) := by
  induction ps with
  | nil =>
      have hnil : (pieces c kind []).2 = .ok [] := rfl
      exact absurd (hnil.symm.trans h) (by simp)
  | cons piece ps ih =>
      have hrest (hps : (pieces c kind ps).2 = .error f) :
          ∃ m, .hit m ∈ piece :: ps ∧ f = .tooLong ∧ ¬ c.tree.Answers (c.denotes m) := by
        obtain ⟨m, hm, hlong⟩ := ih hps
        exact ⟨m, List.mem_cons_of_mem _ hm, hlong⟩
      cases piece with
      | plain a =>
          rw [pieces_cons_plain] at h
          exact hrest (error_of_map_eq_error h)
      | hit m =>
          rw [Copy.pieces_hit] at h
          split at h
          · next g hm =>
              obtain rfl := Except.error.inj h
              exact ⟨m, List.mem_cons_self, match?_error hm⟩
          · exact hrest (error_of_map_eq_error h)

/-- A line cannot be changed if, when it is the turn of some kind, a match of it cannot be looked
up. -/
theorem line_error {kinds : List Reference} {s : Text} (h : (line c kinds s).2 = .error f) :
    ∃ before kind after s', kinds = before ++ kind :: after ∧ (line c before s).2 = .ok s' ∧
      ∃ m, .hit m ∈ kind.grammar.pieces s' ∧ f = .tooLong ∧ ¬ c.tree.Answers (c.denotes m) := by
  induction kinds generalizing s with
  | nil => exact absurd h (by simp [line])
  | cons kind kinds ih =>
      rw [line] at h
      split at h
      · next es g hpieces =>
          obtain rfl := Except.error.inj h
          exact ⟨[], kind, kinds, s, rfl, rfl, pieces_error (by rw [hpieces])⟩
      · next es s₁ hpieces =>
          obtain ⟨before, kind', after, s', rfl, hbefore, hmatch⟩ := ih h
          refine ⟨kind :: before, kind', after, s', rfl, ?_, hmatch⟩
          rw [line, hpieces]
          exact hbefore

theorem lines_error {kinds : List Reference} {attributes : Attributes} {ls : List Text}
    (h : (lines c kinds attributes ls).2 = .error f) :
    ∃ l ∈ ls, (line c kinds (attributes.substitute l)).2 = .error f := by
  induction ls with
  | nil => exact absurd h (by simp [lines])
  | cons l ls ih =>
      rw [lines] at h
      split at h
      · next es g hline =>
          obtain rfl := Except.error.inj h
          exact ⟨l, List.mem_cons_self, by rw [hline]⟩
      · obtain ⟨l', hl', hline⟩ := ih (error_of_map_eq_error h)
        exact ⟨l', List.mem_cons_of_mem _ hl', hline⟩

variable {targets : Targets} {skip : List Path} {t : FileTree}

theorem copy_error {file target : Path} (hfile : file.NullFree) (htarget : target.NullFree)
    (hencoding : '\x00' ∉ how.encoding) (h : (copy how targets file target t).result = .error e) :
    e.Reported ∨ e = .uncertain .tooLong ∧ (copy how targets file target t).tree = t ∧
      ∃ p, Mentions how ⟨t, targets, file, target⟩ p ∧ ¬ t.Answers p := by
  rw [copy] at h ⊢
  split at h
  · next hread =>
      obtain rfl := Except.error.inj h
      exact .inl (Document.read_reported hfile hencoding hread)
  · next ls hread =>
      split at h
      · next es f hlines =>
          obtain rfl := Except.error.inj h
          obtain ⟨l, hl, hline⟩ := lines_error (congrArg Prod.snd hlines)
          obtain ⟨before, kind, after, s, hkinds, hbefore, m, hm, rfl, hlong⟩ := line_error hline
          exact .inr ⟨rfl, rfl, _, ⟨ls, hread, l, hl, before, kind, after, s, hkinds, hbefore, m, hm,
            rfl⟩, hlong⟩
      · exact .inl (Document.write_reported htarget hencoding h)

/-- Copies fail at one of them, and those in front of it are made. -/
theorem copyEach_error {docs : List (Path × Path)}
    (h : (copyEach how targets skip docs t).result = .error e) :
    ∃ before file target after first, docs = before ++ (file, target) :: after ∧ target ∉ skip ∧
      (copyEach how targets skip before t).result = .ok first ∧
      (copy how targets file target (copyEach how targets skip before t).tree).result = .error e ∧
      (copyEach how targets skip docs t).tree =
        (copy how targets file target (copyEach how targets skip before t).tree).tree := by
  induction docs generalizing t with
  | nil => exact absurd h (by simp [copyEach])
  | cons d docs ih =>
      obtain ⟨file, target⟩ := d
      by_cases hskip : target ∈ skip
      · rw [copyEach_cons_of_mem hskip] at h ⊢
        obtain ⟨before, file', target', after, first, rfl, hskip', hfirst, hcopy, htree⟩ := ih h
        refine ⟨(file, target) :: before, file', target', after, first, rfl, hskip', ?_, ?_, ?_⟩
        · rwa [copyEach_cons_of_mem hskip]
        · rwa [copyEach_cons_of_mem hskip]
        · rwa [copyEach_cons_of_mem hskip]
      · cases hone : copy how targets file target t with
        | mk u es r =>
            cases r with
            | error e' =>
                rw [copyEach, if_neg hskip, hone] at h ⊢
                obtain rfl := Except.error.inj h
                exact ⟨[], file, target, docs, [], rfl, hskip, rfl, by rw [copyEach, hone],
                  by rw [copyEach, hone]⟩
            | ok x =>
                rw [copyEach_cons_of_ok hskip hone] at h ⊢
                obtain ⟨before, file', target', after, first, rfl, hskip', hfirst, hcopy, htree⟩ :=
                  ih (error_of_map_eq_error h)
                refine ⟨(file, target) :: before, file', target', after, target :: first, rfl, hskip',
                  ?_, ?_, ?_⟩
                · rw [copyEach_cons_of_ok hskip hone]
                  exact congrArg (Except.map (target :: ·)) hfirst
                · rwa [copyEach_cons_of_ok hskip hone]
                · rwa [copyEach_cons_of_ok hskip hone]

end Relink

/-! ## Runs -/

namespace Build

variable {b : Build} {t : FileTree} {v : Visit} {e : BuildError}

/-- **A path about which a run may ask**, with the file tree that it asks: the source, an entry of
its directory, a document that a document of a visit includes, and what a reference in one denotes,
when this is copied. -/
inductive Consults (b : Build) (t : FileTree) : FileTree → Path → Prop
  | source : Consults b t t b.source
  | entry {ns : List Name} {n : Name} : t.list b.source = .ok ns → n ∈ ns →
      Consults b t t (b.source.child n)
  | directive {v : Visit} {d : Directive} : v ∈ b.visits t → d ∈ b.directivesAt v →
      d.asks = true → Consults b t v.tree d.actual
  | reference {v : Visit} {file target p : Path} : v ∈ b.visits t → b.Maps v file target →
      Relink.Mentions b.copying (b.copyAt v file target) p →
      Consults b t (b.copyAt v file target).tree p

theorem makePage_error
    (h : (b.makePage v.tree v.written v.file v.target).result = .error e) :
    (b.found v).result = .error e ∧
        (b.makePage v.tree v.written v.file v.target).tree = v.tree ∨
      (b.copies v).result = .error e ∧
        (b.makePage v.tree v.written v.file v.target).tree = (b.copies v).tree := by
  rw [makePage_eq] at h ⊢
  split at h
  · next e' hfound =>
      obtain rfl := Except.error.inj h
      exact .inl ⟨hfound, rfl⟩
  · split at h
    · next e' hcopies =>
        obtain rfl := Except.error.inj h
        exact .inr ⟨hcopies, rfl⟩
    · exact absurd h (by simp)

/-- A run fails at one of its visits. -/
theorem makePages_error {docs : List (Path × Path)} {written : List Path}
    (h : (b.makePages docs t written).result = .error e) :
    ∃ v ∈ b.visitAll docs t written,
      (b.found v).result = .error e ∧ (b.makePages docs t written).tree = v.tree ∨
        (b.copies v).result = .error e ∧
          (b.makePages docs t written).tree = (b.copies v).tree := by
  induction docs generalizing t written with
  | nil => exact absurd h (by simp [makePages])
  | cons d docs ih =>
      obtain ⟨file, target⟩ := d
      rw [makePages] at h ⊢
      rw [visitAll]
      cases hpage : (b.makePage t written file target).result with
      | error e' =>
          simp only [hpage] at h ⊢
          obtain rfl := Except.error.inj h
          exact ⟨_, List.mem_cons_self, makePage_error (v := ⟨t, written, file, target⟩) hpage⟩
      | ok page =>
          simp only [hpage] at h ⊢
          obtain ⟨v, hv, hfails⟩ := ih (error_of_map_eq_error h)
          exact ⟨v, List.mem_cons_of_mem _ hv, hfails⟩

theorem pagesAmong_error {source workingDir : Path} {names : List Name}
    (h : pagesAmong t source workingDir names = .error e) :
    e = .uncertain .tooLong ∧ ∃ n ∈ names, ¬ t.Answers (source.child n) := by
  induction names with
  | nil => exact absurd h (by simp [pagesAmong])
  | cons n names ih =>
      have hrest (hnames : pagesAmong t source workingDir names = .error e) :
          e = .uncertain .tooLong ∧ ∃ m ∈ n :: names, ¬ t.Answers (source.child m) := by
        obtain ⟨rfl, m, hm, hlong⟩ := ih hnames
        exact ⟨rfl, m, List.mem_cons_of_mem _ hm, hlong⟩
      rw [pagesAmong] at h
      simp only at h
      split at h
      · next f hpage =>
          obtain rfl := Except.error.inj h
          obtain ⟨rfl, hlong⟩ := Document.isPage?_error hpage
          exact ⟨rfl, n, List.mem_cons_self, hlong⟩
      · split at h
        · exact hrest (error_of_map_eq_error h)
        · exact hrest h

theorem topLevel_error (h : (b.topLevel t).2 = .error e) :
    e.Reported ∨ e = .uncertain .tooLong ∧ ∃ p, b.Consults t t p ∧ ¬ t.Answers p := by
  rw [topLevel] at h
  split at h
  · next f hdir =>
      obtain rfl := Except.error.inj h
      obtain ⟨rfl, hlong⟩ := map_status?_error hdir
      exact .inr ⟨rfl, b.source, .source, hlong⟩
  · exact absurd h (by simp)
  · split at h
    · obtain rfl := Except.error.inj h
      exact .inl rfl
    · next ns hlist =>
        obtain ⟨rfl, n, hn, hlong⟩ := pagesAmong_error h
        exact .inr ⟨rfl, b.source.child n, .entry hlist hn, hlong⟩

section Visits

variable (hb : b.Live) (hsource : b.source.NullFree) (hworking : b.workingDir.NullFree)
  (hv : v ∈ b.visits t)

include hb hsource hworking hv

theorem found_error (h : (b.found v).result = .error e) :
    e.Reported ∨ e = .uncertain .tooLong ∧ ∃ p, b.Consults t v.tree p ∧ ¬ v.tree.Answers p := by
  rcases Search.collect_error h with ⟨file, target, hmaps, hdir⟩ | ⟨d, f, hpending, hp, rfl⟩
  · left
    have hread := error_of_map_eq_error hdir
    exact Document.read_reported (found_nullFree hb hsource hworking hv file target hmaps).1
      hb.encoding_nullFree hread
  · obtain ⟨file, target, ds, hmaps, hds, hd⟩ := hpending
    obtain ⟨hasks, rfl, hlong⟩ := Directive.promotes?_error hp
    exact .inr ⟨rfl, d.actual, .directive hv (mem_directivesAt hmaps hds hd) hasks, hlong⟩

theorem copies_error (h : (b.copies v).result = .error e) :
    e.Reported ∨ e = .uncertain .tooLong ∧
      ∃ p, b.Consults t (b.copies v).tree p ∧ ¬ (b.copies v).tree.Answers p := by
  obtain ⟨before, file, target, after, -, hentries, -, -, hcopy, htree⟩ := Relink.copyEach_error h
  have hmaps : b.Maps v file target := maps_iff_mem.2 (by rw [hentries]; simp)
  obtain ⟨hfile, htarget⟩ := found_nullFree hb hsource hworking hv file target hmaps
  have hat : b.copyAt v file target =
      ⟨(Relink.copyEach b.copying (b.found v).targets v.written before v.tree).tree,
        (b.found v).targets, file, target⟩ := by
    rw [copyAt, takeWhile_entries hentries]
  rcases Relink.copy_error hfile htarget hb.encoding_nullFree hcopy with
    hreported | ⟨rfl, hleft, p, hp, hlong⟩
  · exact .inl hreported
  · rw [← hat] at hp
    have hcopies : (b.copies v).tree = (b.copyAt v file target).tree := by
      rw [hat]
      exact htree.trans hleft
    rw [hcopies]
    refine .inr ⟨rfl, p, .reference hv hmaps hp, ?_⟩
    rwa [hat]

end Visits

/-- A run fails with a message, or at a path that is too long. -/
theorem run_error (hb : b.Live) (hsource : b.source.NullFree) (hworking : b.workingDir.NullFree)
    (h : (b.run t).result = .error e) :
    e.Reported ∨ e = .uncertain .tooLong ∧
      ∃ p, b.Consults t (b.run t).tree p ∧ ¬ (b.run t).tree.Answers p := by
  cases hpages : b.pages with
  | some pages =>
      rw [run_of_pages hpages] at h
      exact absurd h (by simp)
  | none =>
      cases htop : b.topLevel t with
      | mk es r =>
          cases r with
          | error e' =>
              rw [run, hpages] at h ⊢
              simp only [make, htop] at h ⊢
              obtain rfl := Except.error.inj h
              exact topLevel_error (by rw [htop])
          | ok docs =>
              obtain ⟨htree, -, hresult⟩ := run_of_topLevel hpages htop
              rw [hresult] at h
              rw [htree]
              obtain ⟨v, hv, hfails⟩ := makePages_error h
              rw [← visits_of_topLevel hpages htop] at hv
              rcases hfails with ⟨hfound, hleft⟩ | ⟨hcopies, hleft⟩
              · rw [hleft]
                exact found_error hb hsource hworking hv hfound
              · rw [hleft]
                exact copies_error hb hsource hworking hv hcopies

/-! ## Opening -/

theorem checkSource_error {source : Path} (h : checkSource t source = .error e) :
    e.Reported ∨ e = .uncertain .tooLong ∧ ¬ t.Answers source := by
  rw [checkSource_eq] at h
  split at h
  · next f hstatus =>
      obtain rfl := Except.error.inj h
      obtain ⟨rfl, hlong⟩ := map_status?_error (g := id) (by rw [hstatus]; rfl)
      exact .inr ⟨rfl, hlong⟩
  · obtain rfl := Except.error.inj h
    exact .inl rfl
  · exact absurd h (by simp)
  · split at h
    · exact absurd h (by simp)
    · obtain rfl := Except.error.inj h
      exact .inl rfl

theorem checkWorkingDir_error {workingDir : Path} (h : checkWorkingDir t workingDir = .error e) :
    e.Reported ∨ e = .uncertain .tooLong ∧ ¬ t.Answers workingDir := by
  rw [checkWorkingDir_eq] at h
  split at h
  · next f hstatus =>
      obtain rfl := Except.error.inj h
      obtain ⟨rfl, hlong⟩ := map_status?_error (g := id) (by rw [hstatus]; rfl)
      exact .inr ⟨rfl, hlong⟩
  · exact absurd h (by simp)
  · exact absurd h (by simp)
  · obtain rfl := Except.error.inj h
    exact .inl rfl

theorem checkEncoding_error {name : Text} (h : checkEncoding name = .error e) :
    e.Reported ∨ e = .nullCharacter ∧ '\x00' ∈ name ∨ e = .half ∧ name.any Half.isHalf = true := by
  rw [checkEncoding, Encoding.find] at h
  by_cases hhalf : name.any Half.isHalf = true
  · rw [if_pos hhalf] at h
    exact .inr (.inr ⟨(Except.error.inj h).symm, hhalf⟩)
  · rw [if_neg hhalf] at h
    by_cases hnull : '\x00' ∈ name
    · rw [if_pos hnull] at h
      exact .inr (.inl ⟨(Except.error.inj h).symm, hnull⟩)
    · rw [if_neg hnull] at h
      cases hname : Encoding.ofName? name with
      | none =>
          simp only [hname] at h
          obtain rfl := Except.error.inj h
          exact .inl rfl
      | some encoding =>
          simp only [hname] at h
          exact absurd h (by simp)

/-- **A build that fails says why**, unless it has come to a path that is too long. Opening also
fails without a message if the name of the encoding holds a null character or half a pair. -/
theorem error_reported (t : FileTree) (source workingDir : Path) (attributes : Attributes)
    (encoding : Text) :
    (∀ e, open? t source workingDir attributes encoding = .error e →
      e.Reported ∨ e = .uncertain .tooLong ∧ (¬ t.Answers source ∨ ¬ t.Answers workingDir) ∨
        e = .nullCharacter ∧ '\x00' ∈ encoding ∨ e = .half ∧ encoding.any Half.isHalf = true) ∧
    ∀ b : Build, b.Live → b.source.NullFree → b.workingDir.NullFree →
      ∀ e, (b.run t).result = .error e →
        e.Reported ∨ e = .uncertain .tooLong ∧
          ∃ p, b.Consults t (b.run t).tree p ∧ ¬ (b.run t).tree.Answers p := by
  refine ⟨fun e h => ?_, fun b hb hsource hworking e h => run_error hb hsource hworking h⟩
  rw [open?] at h
  rcases error_of_bind_eq_error h with hsource | ⟨_, -, h⟩
  · rcases checkSource_error hsource with hreported | ⟨rfl, hlong⟩
    · exact .inl hreported
    · exact .inr (.inl ⟨rfl, .inl hlong⟩)
  · rcases error_of_bind_eq_error h with hworking | ⟨_, -, h⟩
    · rcases checkWorkingDir_error hworking with hreported | ⟨rfl, hlong⟩
      · exact .inl hreported
      · exact .inr (.inl ⟨rfl, .inr hlong⟩)
    · rcases error_of_bind_eq_error h with hname | ⟨_, -, h⟩
      · exact (checkEncoding_error hname).imp_right .inr
      · exact absurd h (by simp)

/-- A document that is no text in UTF-8. -/
def blotTree : FileTree :=
  .ofFiles [("/docs/index.adoc", "= A\n\xff\n")]

def blot : Build :=
  ⟨Path.absolute blotTree.cwdPath (.ofText "/docs/index.adoc".toList),
    Path.absolute blotTree.cwdPath (.ofText "/work".toList), .empty, "utf-8".toList, [], none⟩

theorem blot_error_reported :
    let index : Path := .ofText "/docs/index.adoc".toList
    let absent : Path := .ofText "/docs/absent.adoc".toList
    let workingDir : Path := .ofText "/work".toList
    let encoding : Text := "utf-8".toList
    let opening : BuildError := .sourceMissing absent
    let running : BuildError := .unreadable index .text
    (open? blotTree absent workingDir .empty encoding = .error opening ∧ blot.Live ∧
      blot.source.NullFree ∧ blot.workingDir.NullFree ∧
      (blot.run blotTree).result = .error running) ∧
    (opening.Reported ∨ opening = .uncertain .tooLong ∧
        (¬ blotTree.Answers absent ∨ ¬ blotTree.Answers workingDir) ∨
      opening = .nullCharacter ∧ '\x00' ∈ encoding ∨
      opening = .half ∧ encoding.any Half.isHalf = true) ∧
    (running.Reported ∨ running = .uncertain .tooLong ∧
      ∃ p, blot.Consults blotTree (blot.run blotTree).tree p ∧
        ¬ (blot.run blotTree).tree.Answers p) := by
  intro index absent workingDir encoding opening running
  have hopen : open? blotTree absent workingDir .empty encoding = .error opening :=
    error_of_map_eq_error (f := fun _ => ()) (by decide +kernel)
  have hopen' : open? blotTree index workingDir .empty encoding = .ok blot :=
    open?_of_isOk (by decide +kernel)
  have hlive : blot.Live := .opened hopen'
  have hnull : blot.source.NullFree ∧ blot.workingDir.NullFree :=
    open?_nullFree hopen' (by decide +kernel) (by decide +kernel) (by decide +kernel)
  have hrun : (blot.run blotTree).result = .error running :=
    error_of_map_eq_error (f := fun _ => ()) (by decide +kernel)
  obtain ⟨hopening, hrunning⟩ := error_reported blotTree absent workingDir .empty encoding
  exact ⟨⟨hopen, hlive, hnull.1, hnull.2, hrun⟩, hopening opening hopen,
    hrunning blot hlive hnull.1 hnull.2 running hrun⟩

/-- A document with a reference whose name is too long for a file. -/
def lengthyTree : FileTree :=
  let line : Text := "link:".toList ++ .replicate 256 'x' ++ "[L]\n".toList
  (putEntries [(.ofText "/src/index.adoc".toList,
    .file (line.map fun c => UInt8.ofNat c.toNat))] (empty [])).1

def lengthy : Build :=
  ⟨Path.absolute lengthyTree.cwdPath (.ofText "/src/index.adoc".toList),
    Path.absolute lengthyTree.cwdPath (.ofText "/work".toList), .empty, "utf-8".toList, [], none⟩

/-- **A long reference in a document** ends the run without a message. -/
theorem lengthy_unreported :
    let source : Path := .ofText "/src/index.adoc".toList
    let workingDir : Path := .ofText "/work".toList
    source.NullFree ∧ workingDir.NullFree ∧
      open? lengthyTree source workingDir .empty "utf-8".toList = .ok lengthy ∧
      (lengthy.run lengthyTree).result = .error (.uncertain .tooLong) ∧
      ¬ (BuildError.uncertain .tooLong).Reported := by
  intro source workingDir
  have hopen : open? lengthyTree source workingDir .empty "utf-8".toList = .ok lengthy :=
    open?_of_isOk (by decide +kernel)
  have hrun : (lengthy.run lengthyTree).result = .error (.uncertain .tooLong) :=
    error_of_map_eq_error (f := fun _ => ()) (by decide +kernel)
  exact ⟨by decide +kernel, by decide +kernel, hopen, hrun, Bool.false_ne_true⟩

end Build

end Folio
