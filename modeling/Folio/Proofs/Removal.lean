import Folio.Proofs.InclusionPass
import Folio.Proofs.Lookup

/-!
# Lines that make pages are taken out

Which lines make pages is decided when a document is searched, with the targets known by then. Which
lines are taken out is decided when its copy is made, with all targets of the visit. And a document
of several visits has one copy, which is made in the first of them.

**Theorem (`Build.paged_directives_removed`).** Still the two agree, as long as different documents
have different places and no document stands at a place that the run writes: where a line has made a
page, in whatever visit, the copy has what is left of the line without the directive.

The reason is that the decision does not depend on the visit. A document that a line makes a page of
is the same file in all visits, so the line makes a page of it in the first visit as well, and all
documents that are made pages of have targets when the copies are made (`collect_promotions`).
-/

namespace Folio

open FileTree

/-! ## What the events of a search tell -/

/-- The path in a line, and the including document with its place, if the event says that the line
makes a page: for the first time, or again. -/
def Event.paged? : Event → Option (Text × Path × Path)
  | .promoted path _ _ file target => some (path, file, target)
  | .revisited path _ file target => some (path, file, target)
  | _ => none

namespace Search

variable {s u : Search} {file target : Path} {d : Directive} {ds : List Directive}

/-- An event that tells of a page has a directive of the including document behind it. -/
theorem Follows.exists_directive {m m' : Targets} {es : List Event} {ts : List Outline}
    (h : s.Follows m ds m' es ts)
    (hds : ∀ d ∈ ds, ∃ ds', s.directives d.file d.target = .ok ds' ∧ d ∈ ds') {e : Event}
    (he : e ∈ es) {path : Text} (hpaged : e.paged? = some (path, file, target)) :
    ∃ ds', s.directives file target = .ok ds' ∧
      ∃ d ∈ ds', d.path = path ∧ d.promotes? s.tree = .ok true := by
  induction h with
  | nil => exact absurd he (by simp)
  | kept _ _ ih =>
      rw [List.forall_mem_cons] at hds
      rcases List.mem_cons.1 he with rfl | he
      · exact absurd hpaged (by simp [Event.paged?])
      · exact ih hds.2 he
  | revisited hp _ _ ih =>
      rw [List.forall_mem_cons] at hds
      rcases List.mem_cons.1 he with rfl | he
      · obtain ⟨⟨ds', hds', hd⟩, -⟩ := hds
        obtain ⟨rfl, rfl, rfl⟩ : _ = path ∧ _ = file ∧ _ = target := by
          simpa [Event.paged?] using hpaged
        exact ⟨ds', hds', _, hd, rfl, hp⟩
      · exact ih hds.2 he
  | @promoted _ _ _ d _ inner _ _ _ _ hp _ hdir _ _ ih₁ ih₂ =>
      rw [List.forall_mem_cons] at hds
      rw [List.mem_cons, List.mem_cons, List.mem_append] at he
      rcases he with rfl | rfl | he | he
      · obtain ⟨⟨ds', hds', hd⟩, -⟩ := hds
        obtain ⟨rfl, rfl, rfl⟩ : _ = path ∧ _ = file ∧ _ = target := by
          simpa [Event.paged?] using hpaged
        exact ⟨ds', hds', _, hd, rfl, hp⟩
      · exact absurd hpaged (by simp [Event.paged?])
      · refine ih₁ (fun d' hd' => ⟨inner, ?_, hd'⟩) he
        obtain ⟨hfile, htarget, -, -⟩ := mem_directives hdir hd'
        rw [hfile, htarget]
        exact hdir
      · exact ih₂ hds.2 he

/-- The including document promotes the document that a line makes a page of. -/
theorem mem_promotions_of_paged {root place : Path} {page : Page}
    (hpage : (s.collect root place .empty).result = .ok page) {e : Event}
    (he : e ∈ (s.collect root place .empty).events) {path : Text}
    (hpaged : e.paged? = some (path, file, target)) :
    ∃ qs, s.promotions file = .ok qs ∧ Document.refer file path ∈ qs := by
  obtain ⟨ds, m', es, ts, hdir, hf, hcollect⟩ := collect_follows (OrderedMap.get?_empty root) hpage
  rw [hcollect] at he
  have hin : e ∈ es := by
    rcases List.mem_cons.1 he with rfl | he
    · exact absurd hpaged (by simp [Event.paged?])
    · exact he
  have hds : ∀ d ∈ ds, ∃ ds', s.directives d.file d.target = .ok ds' ∧ d ∈ ds' := by
    intro d hd
    obtain ⟨hfile, htarget, -, -⟩ := mem_directives hdir hd
    exact ⟨ds, by rw [hfile, htarget, hdir], hd⟩
  obtain ⟨ds', hdir', d, hd, rfl, hp⟩ := hf.exists_directive hds hin hpaged
  refine ⟨_, promotions_of_directives hdir', ?_⟩
  rw [← (mem_directives hdir' hd).2.2.1]
  exact List.mem_filterMap.2 ⟨d, hd, page?_of_promotes hp⟩

/-! ## The same document in another search -/

theorem promoted?_congr (hattributes : u.attributes = s.attributes) {line : Text} {q : Path}
    (h : s.promoted? file line = some q) (hq : Document.isPage? u.tree q = .ok true) :
    u.promoted? file line = some q := by
  rw [promoted?] at h ⊢
  rw [hattributes]
  split at h
  · exact absurd h (by simp)
  · next m hm =>
      simp only at h ⊢
      split at h
      · exact absurd h (by simp)
      · next hplain =>
          rw [if_neg hplain]
          split at h
          · obtain rfl := Option.some.inj h
            rw [hq]
          · exact absurd h (by simp)

/-- What a document promotes in one search, it promotes in another one, if it has the same lines
there and the promoted document is one. -/
theorem promotions_congr (hattributes : u.attributes = s.attributes) {lines : List Text}
    (hread : Document.read s.tree file s.encoding = .ok lines)
    (hread' : Document.read u.tree file u.encoding = .ok lines) {qs : List Path} {q : Path}
    (h : s.promotions file = .ok qs) (hq : q ∈ qs)
    (hpage : Document.isPage? u.tree q = .ok true) :
    ∃ qs', u.promotions file = .ok qs' ∧ q ∈ qs' := by
  rw [promotions, hread] at h
  obtain rfl := Except.ok.inj h
  obtain ⟨line, hline, hpromoted⟩ := List.mem_filterMap.1 hq
  refine ⟨lines.filterMap (u.promoted? file), by rw [promotions, hread']; rfl, ?_⟩
  exact List.mem_filterMap.2 ⟨line, hline, promoted?_congr hattributes hpromoted hpage⟩

end Search

/-! ## Lines of a copy -/

namespace Relink

theorem lines_eq_ok {c : Copy} {kinds : List Reference} {attributes : Attributes}
    {ls out : List Text} (h : (lines c kinds attributes ls).2 = .ok out) :
    List.Forall₂ (fun l l' => (line c kinds (attributes.substitute l)).2 = .ok l') ls out := by
  induction ls generalizing out with
  | nil =>
      obtain rfl := Except.ok.inj h
      exact .nil
  | cons l ls ih =>
      rw [lines] at h
      split at h
      · exact absurd h (by simp)
      · next es l' hl =>
          obtain ⟨rest, hrest, rfl⟩ := exists_of_map_eq_ok h
          exact .cons (by rw [hl]) (ih hrest)

theorem copyLines?_eq_some {how : Copying} {c : Copy} {out : List Text}
    (h : copyLines? how c = some out) :
    ∃ ls, Document.read c.tree c.file how.encoding = .ok ls ∧
      (lines c how.kinds how.attributes ls).2 = .ok out := by
  rw [copyLines?] at h
  split at h
  · exact absurd h (by simp)
  · next ls hread =>
      refine ⟨ls, hread, ?_⟩
      cases hlines : (lines c how.kinds how.attributes ls).2 with
      | error f =>
          rw [hlines] at h
          exact absurd h (by simp [Except.toOption])
      | ok out' =>
          rw [hlines] at h
          rw [Option.some.inj h]

end Relink

/-- An including line whose document has a target is left to the other kinds without its match. -/
theorem Copy.line_removed {c : Copy} {m : Match} {line rest copied : Text}
    (hm : Reference.inclusion.grammar.match? line = some m)
    (hline : line = Reference.inclusion.grammar.textOf m ++ rest)
    (hexists : c.tree.exists? (c.denotes m) = .ok true) (htarget : c.denotes m ∈ c.targets.keys)
    (hcopied : (Relink.line c Reference.all line).2 = .ok copied) :
    (Relink.line c [.inclusion] line).2 = .ok rest ∧
      (Relink.line c Reference.later rest).2 = .ok copied := by
  have hfinds := finds_eq_of_exists? hexists
  have hremoves : c.removes m = true := by
    rw [removes, hfinds, Bool.true_and]
    exact OrderedMap.get?_isSome.2 htarget
  have hpass : ∀ kinds, (Relink.line c (.inclusion :: kinds) line).2 =
      (Relink.line c kinds rest).2 := by
    intro kinds
    rw [line_inclusion hm hline hfinds, if_pos hremoves, List.nil_append]
  rw [Reference.all_eq, line_imagesDirectory hm, hpass] at hcopied
  exact ⟨hpass [], hcopied⟩

/-- What is around the match stays. -/
example :
    let p : Path := .ofText "/a.adoc".toList
    (Relink.line ⟨.ofFiles [("/a.adoc", "")], .insert .empty p p, p, p⟩ Reference.all
      "include::a.adoc[] more".toList).2 = .ok " more".toList := by
  decide +kernel

namespace Build

variable {b : Build} {t : FileTree} {v : Visit} {file target : Path}

/-! ## The trees of a run -/

/-- The place is written by the run. -/
def Writes (b : Build) (t : FileTree) (p : Path) : Prop := p ∈ (b.run t).written ∧ p ∉ b.written

/-- No document of the run stands at a place that it writes. -/
def Spares (b : Build) (t : FileTree) : Prop :=
  ∀ v ∈ b.visits t, ∀ file ∈ (b.found v).targets.keys, ∀ p, b.Writes t p →
    file.location ≠ p.location

theorem visit_changes (hb : b.Live) (ht : t.LinkFree) (hrun : (b.run t).result.isOk)
    (hv : v ∈ b.visits t) :
    Changes (b.Writes t) t v.tree ∧
      ∀ file target, Changes (b.Writes t) t (b.copyAt v file target).tree := by
  obtain ⟨earlier, later, page, new, hvs, hearlier, -, hcopies, hlater⟩ := (run_runs hrun).split hv
  have hmono : ∀ p ∈ v.written ++ new, p ∈ (b.run t).written := fun p hp =>
    hlater.mem_written_iff.2 (.inl hp)
  have hvisit : Changes (b.Writes t) t v.tree := by
    refine (hearlier.changes hb (fun u hu => hvs ▸ List.mem_append_left _ hu) ht).mono ?_
    exact fun p hp => ⟨hmono p (List.mem_append_left _ hp.1), hp.2⟩
  have hnew : ∀ p ∈ new, b.Writes t p := by
    intro p hp
    refine ⟨hmono p (List.mem_append_right _ hp), fun hold => ?_⟩
    exact ((mem_new_iff hcopies).1 hp).2 (hearlier.mem_written_iff.2 (.inl hold))
  refine ⟨hvisit, fun file target => ?_⟩
  rw [copies, Relink.copyAll,
    ← List.takeWhile_append_dropWhile (p := fun e => decide (e.1 ≠ file))
      (l := (b.found v).targets.entries)] at hcopies
  obtain ⟨first, rest, hfirst, -, rfl, -⟩ := Relink.copyEach_append hcopies
  have hnormal : ∀ e ∈ (b.found v).targets.entries.takeWhile (fun e => decide (e.1 ≠ file)),
      e.2.Normal := fun _ he =>
    ((maps_iff_mem.2 (List.takeWhile_subset _ he)).placed hb hv).1
  exact hvisit.trans ((Relink.copyEach_changes_new (ht.of_changes hvisit) hnormal hfirst).mono
    fun p hp => hnew p (List.mem_append_left _ hp))

section Spares

variable (hb : b.Live) (ht : t.LinkFree) (hrun : (b.run t).result.isOk) (hspares : b.Spares t)

include hb ht hrun hspares

/-- **A document is the same file** in all trees of a run. -/
theorem status?_of_mem_keys (hv : v ∈ b.visits t) (hkey : file ∈ (b.found v).targets.keys)
    {content : List UInt8} (h : v.tree.status? file = .ok (some (.file content))) {u : FileTree}
    (hu : Changes (b.Writes t) t u) : u.status? file = .ok (some (.file content)) := by
  obtain ⟨target, hmaps⟩ := Option.isSome_iff_exists.1 (OrderedMap.get?_isSome.2 hkey)
  exact status?_of_changes ht (visit_changes hb ht hrun hv).1 hu
    (found_placed hb hv file target hmaps).1 (hspares v hv file hkey) h

theorem read_of_mem_keys (hv : v ∈ b.visits t) (hkey : file ∈ (b.found v).targets.keys)
    {lines : List Text} (h : Document.read v.tree file b.encoding = .ok lines) {u : FileTree}
    (hu : Changes (b.Writes t) t u) : Document.read u file b.encoding = .ok lines := by
  obtain ⟨content, hcontent⟩ := Document.exists_status?_of_read h
  exact Document.read_of_status? h hcontent
    (status?_of_mem_keys hb ht hrun hspares hv hkey hcontent hu)

/-- What a document promotes in one visit is found in every visit that has the document. -/
theorem mem_keys_of_mem_promotions {first : Visit} (hv : v ∈ b.visits t)
    (hfirst : first ∈ b.visits t) (hkey : file ∈ (b.found v).targets.keys)
    (hkey' : file ∈ (b.found first).targets.keys) {qs : List Path} {q : Path}
    (hqs : (b.search v).promotions file = .ok qs) (hq : q ∈ qs) :
    q ∈ (b.found first).targets.keys ∧
      ∀ u, Changes (b.Writes t) t u → u.exists? q = .ok true := by
  obtain ⟨-, -, page, -, -, -, hpage, -⟩ := (run_runs hrun).split hv
  obtain ⟨-, -, page', -, -, -, hpage', -⟩ := (run_runs hrun).split hfirst
  -- The promoted document is one in all trees of the run.
  obtain ⟨qs', hqs', hqskeys⟩ := Search.collect_promotions hpage hkey
  obtain rfl : qs' = qs := Except.ok.inj (hqs'.symm.trans hqs)
  obtain ⟨hname, content, hcontent⟩ := Document.isPage?_eq_true_iff.1
    (Search.isPage?_of_mem_promotions hqs hq)
  have hfile : ∀ u, Changes (b.Writes t) t u → u.status? q = .ok (some (.file content)) :=
    fun u hu => status?_of_mem_keys hb ht hrun hspares hv (hqskeys q hq) hcontent hu
  have hpage? : Document.isPage? first.tree q = .ok true := Document.isPage?_eq_true_iff.2
    ⟨hname, content, hfile _ (visit_changes hb ht hrun hfirst).1⟩
  -- And so are the lines of the document that promotes it.
  obtain ⟨lines, hread, -⟩ := exists_of_map_eq_ok hqs
  have hread' : Document.read first.tree file b.encoding = .ok lines :=
    read_of_mem_keys hb ht hrun hspares hv hkey hread (visit_changes hb ht hrun hfirst).1
  obtain ⟨qs'', hqs'', hq''⟩ := Search.promotions_congr (s := b.search v) (u := b.search first) rfl
    hread hread' hqs hq hpage?
  obtain ⟨qs₁, hqs₁, hqs₁keys⟩ := Search.collect_promotions hpage' hkey'
  obtain rfl : qs'' = qs₁ := Except.ok.inj (hqs''.symm.trans hqs₁)
  exact ⟨hqs₁keys q hq'', fun u hu => exists?_of_status? (hfile u hu)⟩

end Spares

/-! ## Pages and copies -/

/-- Where the line makes a page in the visit `v`, the copy that the visit `first` makes has what the
other kinds make of the line without its directive. -/
def TakenOut (b : Build) (v first : Visit) (file target : Path) (line copied : Text) : Prop :=
  ∀ m rest, Reference.inclusion.grammar.match? (b.attributes.substitute line) = some m →
    b.attributes.substitute line = Reference.inclusion.grammar.textOf m ++ rest →
    (∃ e ∈ (b.found v).events, e.paged? = some (Text.trim m.path, file, target)) →
      let c := b.copyAt first file target
      (Relink.line c [.inclusion] (b.attributes.substitute line)).2 = .ok rest ∧
        (Relink.line c Reference.later rest).2 = .ok copied

/-- **Lines that make pages are taken out** of the copy that a run makes of a document. The copy is
made in the first visit with its place, and has one line for each line of the document. -/
theorem paged_directives_removed (hb : b.Live) (ht : t.LinkFree) (hrun : (b.run t).result.isOk)
    (hdistinct : b.Distinct t) (hspares : b.Spares t) (hv : v ∈ b.visits t)
    (hmaps : b.Maps v file target) (hnew : target ∉ b.written) :
    ∃ first ∈ b.visits t, b.Maps first file target ∧ target ∉ first.written ∧
      ∃ lines out bytes, Document.read v.tree file b.encoding = .ok lines ∧
        Document.bytes? b.encoding out = some bytes ∧
        (b.run t).tree.entryAt target.location = some (.file bytes) ∧
        List.Forall₂ (b.TakenOut v first file target) lines out := by
  have hruns := run_runs hrun
  -- The copy is made in the first visit that has the document, and holds what is made there.
  have hmem : target ∈ (b.run t).written := hruns.mem_written_iff.2 (.inr ⟨v, hv, file, hmaps⟩)
  obtain ⟨first, hfirst, hunwritten, last, hlast, out, bytes, hout, hbytes, hentry⟩ :=
    exists_holds hb ht hrun hmem hnew
  obtain rfl : last = file := hdistinct first hfirst v hv last file target hlast.maps hmaps
  have hcopy := (visit_changes hb ht hrun hfirst).2 last target
  have hkey := Search.mem_keys_of_get? hmaps
  -- It is made from the lines that the search has read.
  obtain ⟨-, -, page, -, -, -, hpage, -⟩ := hruns.split hv
  obtain ⟨qs, hqs, -⟩ := Search.collect_promotions hpage hkey
  obtain ⟨lines, hread, -⟩ := exists_of_map_eq_ok hqs
  obtain ⟨lines', hread', hmade⟩ := Relink.copyLines?_eq_some hout
  obtain rfl : lines' = lines := Except.ok.inj
    (hread'.symm.trans (read_of_mem_keys hb ht hrun hspares hv hkey hread hcopy))
  refine ⟨first, hfirst, hlast.maps, hunwritten, lines', out, bytes, hread, hbytes, hentry,
    (Relink.lines_eq_ok hmade).imp ?_⟩
  rintro line copied hcopied m rest hm hline ⟨e, he, hpaged⟩
  -- The document of the line has a target when the copy is made.
  obtain ⟨qs', hqs', hq⟩ := Search.mem_promotions_of_paged hpage he hpaged
  obtain ⟨htarget, hexists⟩ := mem_keys_of_mem_promotions hb ht hrun hspares hv hfirst hkey
    (Search.mem_keys_of_get? hlast.maps) hqs' hq
  exact Copy.line_removed hm hline (hexists _ hcopy) htarget hcopied

/-- Two documents at the source that include a third one, which includes a fourth. -/
def sharedTree : FileTree :=
  .ofFiles [("/docs/a.adoc", "include::part/c.adoc[]\n"),
    ("/docs/b.adoc", "include::part/c.adoc[]\n"),
    ("/docs/part/c.adoc", "include::d.adoc[] and more\n"), ("/docs/part/d.adoc", "")]

/-- A build of these documents below `/work`. -/
def shared : Build :=
  ⟨Path.absolute sharedTree.cwdPath (.ofText "/docs".toList),
    Path.absolute sharedTree.cwdPath (.ofText "/work".toList), .empty, "utf-8".toList, [], none⟩

def sharedDocs : List (Path × Path) :=
  [(.ofText "/docs/a.adoc".toList, .ofText "/work/a.adoc".toList),
    (.ofText "/docs/b.adoc".toList, .ofText "/work/b.adoc".toList)]

theorem shared_live : shared.Live := .of_isOk (by decide +kernel)

-- A list is not sorted by evaluation, so the documents at the source are told by hand.
theorem shared_topLevel :
    shared.topLevel sharedTree = ([.listed shared.source], .ok sharedDocs) := by
  have hdir : sharedTree.isDirectory? shared.source = .ok true := by decide +kernel
  have hres : sharedTree.resolve shared.source = .ok (.entry shared.source.location) := by
    decide +kernel
  have hentry : sharedTree.entryAt shared.source.location = some .directory := by decide +kernel
  have hnames : sharedTree.namesIn shared.source.location =
      (Path.ofText "a.adoc/b.adoc/part".toList).names := by
    rw [namesIn, List.mergeSort_of_pairwise]
    · decide +kernel
    · decide +kernel
  have hlist : sharedTree.list shared.source =
      .ok (Path.ofText "a.adoc/b.adoc/part".toList).names := by
    rw [list, hres]
    simp only [hentry, if_true, hnames]
  have hdocs : pagesAmong sharedTree shared.source shared.workingDir
      (Path.ofText "a.adoc/b.adoc/part".toList).names = .ok sharedDocs := by
    decide +kernel
  rw [topLevel, hdir]
  simp only [hlist, hdocs]

theorem shared_distinct : shared.Distinct sharedTree := by
  have hdir : sharedTree.isDirectory? shared.source = .ok true := by decide +kernel
  have hall : ((shared.visitAll sharedDocs sharedTree shared.written).all fun v =>
      (shared.found v).targets.keys.all fun file =>
        decide (shared.source.Below file) && decide (file.anchor = shared.source.anchor)) = true := by
    decide +kernel
  simp only [List.all_eq_true, Bool.and_eq_true, decide_eq_true_eq] at hall
  refine distinct_of_below shared_live ?_
  rw [visits_of_topLevel rfl shared_topLevel, home, hdir]
  exact hall

theorem shared_spares : shared.Spares sharedTree := by
  have hall : ((shared.visitAll sharedDocs sharedTree shared.written).all fun v =>
      (shared.found v).targets.keys.all fun file =>
        (shared.makePages sharedDocs sharedTree shared.written).written.all fun p =>
          decide (file.location ≠ p.location)) = true := by
    decide +kernel
  simp only [List.all_eq_true, decide_eq_true_eq] at hall
  rw [Spares, visits_of_topLevel rfl shared_topLevel]
  rintro v hv file hfile p ⟨hp, -⟩
  rw [(run_of_topLevel rfl shared_topLevel).2.1] at hp
  exact hall v hv file hfile p hp

/-- The second visit comes to the third document again, whose copy is there already. -/
theorem shared_paged_directives_removed :
    let file : Path := .ofText "/docs/part/c.adoc".toList
    let target : Path := .ofText "/work/part/c.adoc".toList
    (shared.Live ∧ sharedTree.LinkFree ∧ (shared.run sharedTree).result.isOk ∧
      shared.Distinct sharedTree ∧ shared.Spares sharedTree ∧ target ∉ shared.written) ∧
    ∃ v ∈ shared.visits sharedTree, (shared.Maps v file target ∧ target ∈ v.written ∧
      ∃ e ∈ (shared.found v).events, e.paged? = some ("d.adoc".toList, file, target)) ∧
      ∃ first ∈ shared.visits sharedTree, shared.Maps first file target ∧
        target ∉ first.written ∧
        ∃ lines out bytes, Document.read v.tree file shared.encoding = .ok lines ∧
          Document.bytes? shared.encoding out = some bytes ∧
          (shared.run sharedTree).tree.entryAt target.location = some (.file bytes) ∧
          List.Forall₂ (shared.TakenOut v first file target) lines out := by
  intro file target
  have hfree : sharedTree.LinkFree := linkFree_of_entries (by decide +kernel)
  have hdone : (shared.run sharedTree).result.isOk := by
    rw [(run_of_topLevel rfl shared_topLevel).2.2]
    decide +kernel
  have hnew : target ∉ shared.written := List.not_mem_nil
  have hvisit : ((shared.visitAll sharedDocs sharedTree shared.written).any fun v =>
      decide (shared.Maps v file target) && decide (target ∈ v.written) &&
        (shared.found v).events.any fun e =>
          decide (e.paged? = some ("d.adoc".toList, file, target))) = true := by
    decide +kernel
  obtain ⟨v, hv, hvisit⟩ := List.any_eq_true.1 hvisit
  simp only [Bool.and_eq_true, List.any_eq_true, decide_eq_true_eq] at hvisit
  obtain ⟨⟨hmaps, hthere⟩, hevent⟩ := hvisit
  rw [← visits_of_topLevel rfl shared_topLevel] at hv
  exact ⟨⟨shared_live, hfree, hdone, shared_distinct, shared_spares, hnew⟩,
    v, hv, ⟨hmaps, hthere, hevent⟩,
    paged_directives_removed shared_live hfree hdone shared_distinct shared_spares hv hmaps hnew⟩

end Build

end Folio
