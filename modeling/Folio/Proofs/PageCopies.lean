import Folio.Proofs.PageTree
import Folio.Proofs.Retry
import Folio.Proofs.Sharing

/-!
# Every page has its copy

The pages of a run come from its searches, and the copies from the targets that these searches
leave. A document that is met twice is a leaf where it is met again, and its copy is the one that an
earlier visit has made. So it is not plain that pages and copies belong together.

**Theorem (`Build.run_pages`).** When a run ends with its pages,
* the pages at the top are those of the documents at the source, one for each, in alphabetical
  order,
* the pages in the tree and the copies that the run adds to its list are at the same paths, and
* there is a file at each of these paths in the end, also if links lead there.

A new build has written nothing before, so it ends with no page without a copy and no copy without a
page. Not so a build that has failed before (`swept_page_without_copy`).
-/

namespace Folio

open FileTree

/-! ## The paths of pages -/

namespace Page

theorem walk_append (xs ys : List (Nat × Page)) : walk (xs ++ ys) = walk xs ++ walk ys := by
  rw [walk, visits_append, List.map_append]
  rfl

/-- The paths of all pages at and below some pages. -/
def paths (pages : List Page) : List Path := (rows 0 pages).map Prod.snd

theorem mem_paths_iff {pages : List Page} {p : Path} :
    p ∈ paths pages ↔ ∃ page ∈ pages, p ∈ paths [page] := by
  induction pages with
  | nil => simp [paths, rows, walk]
  | cons page pages ih =>
      have hrows : rows 0 (page :: pages) = rows 0 [page] ++ rows 0 pages := walk_append [(0, page)] _
      rw [paths, hrows, List.map_append, List.mem_append, List.exists_mem_cons_iff, ← ih]
      rfl

theorem path_mem_paths {pages : List Page} : ∀ p ∈ pages.map path, p ∈ paths pages := by
  intro p hp
  obtain ⟨⟨p, cs⟩, hpage, rfl⟩ := List.mem_map.1 hp
  refine mem_paths_iff.2 ⟨_, hpage, ?_⟩
  rw [paths, rows, List.map_singleton, walk_cons]
  exact List.mem_cons_self

end Page

namespace Outline

mutual

theorem walk_page (d : Nat) (t : Outline) :
    (Page.walk [(d, t.page)]).map Prod.snd = t.nodes.map path := by
  cases t with
  | node s p ts =>
      rw [page, Page.walk_cons, List.append_nil, List.map_cons, walk_pageAll (d + 1) ts]
      rfl

/-- The paths of the pages of some outlines are those of their nodes. -/
theorem walk_pageAll (d : Nat) (ts : List Outline) :
    (Page.walk ((pageAll ts).map fun p => (d, p))).map Prod.snd = (nodesAll ts).map path := by
  cases ts with
  | nil => simp [pageAll, nodesAll, Page.walk]
  | cons t ts =>
      have happ : Page.walk ((d, t.page) :: (pageAll ts).map fun p => (d, p)) =
          Page.walk [(d, t.page)] ++ Page.walk ((pageAll ts).map fun p => (d, p)) :=
        Page.walk_append [(d, t.page)] _
      rw [pageAll, List.map_cons, happ, List.map_append, walk_page d t, walk_pageAll d ts,
        nodesAll, List.map_append]

end

theorem paths_page (t : Outline) : Page.paths [t.page] = t.nodes.map path := walk_page 0 t

end Outline

/-- **The page of a search** is that of its document, and its paths are the targets. -/
theorem Search.collect_paths {s : Search} {file target : Path} {page : Page}
    (hpage : (s.collect file target .empty).result = .ok page) :
    page.path = target ∧
      ∀ p, p ∈ Page.paths [page] ↔
        ∃ q, (s.collect file target .empty).targets.get? q = some p := by
  have hnone : (.empty : Targets).get? file = none := rfl
  obtain ⟨ds, m', es, ts, -, hf, hcollect⟩ := collect_follows hnone hpage
  rw [hcollect] at hpage ⊢
  obtain rfl := Except.ok.inj hpage
  refine ⟨rfl, fun p => ?_⟩
  have hroot : m'.get? file = some target :=
    hf.get?_mono (by simp [OrderedMap.get?_insert])
  simp only [Outline.paths_page, Outline.nodes, List.map_cons, List.mem_cons, List.mem_map,
    Outline.path]
  constructor
  · rintro (rfl | ⟨n, hn, rfl⟩)
    · exact ⟨file, hroot⟩
    · exact ⟨n.source, hf.get?_source hn⟩
  · rintro ⟨q, hq⟩
    have hkey := hf.mem_keys_iff.1 (mem_keys_of_get? hq)
    rw [keys_enter, List.mem_append, List.mem_singleton, List.mem_map] at hkey
    rcases hkey with rfl | ⟨n, hn, rfl⟩
    · exact .inl (Option.some.inj (hq.symm.trans hroot))
    · exact .inr ⟨n, hn, Option.some.inj ((hf.get?_source hn).symm.trans hq)⟩

/-! ## Files -/

namespace FileTree

variable {t u : FileTree} {p : Path}

/-- What has been written is a file. -/
theorem isFile?_of_writeFile {content : List UInt8} (h : t.writeFile p content = .ok u) :
    u.isFile? p = .ok true :=
  isFile?_eq_true_iff.2 ⟨content, readFile_eq_ok_iff.1 (readFile_of_writeFile h)⟩

end FileTree

theorem Document.isFile?_of_write {t u : FileTree} {p : Path} {encoding : Text} {lines : List Text}
    (h : write t p encoding lines = (u, .ok ())) : u.isFile? p = .ok true := by
  obtain ⟨_, _, -, -, hwrite⟩ := write_eq_ok_iff.1 h
  exact isFile?_of_writeFile hwrite

namespace Relink

variable {how : Copying} {targets : Targets} {skip new : List Path} {t : FileTree}

theorem isFile?_of_copy {file target : Path} (h : (copy how targets file target t).result = .ok ()) :
    (copy how targets file target t).tree.isFile? target = .ok true := by
  rw [copy] at h ⊢
  split at h
  · exact absurd h (by simp)
  · next ls hread =>
      split at h
      · exact absurd h (by simp)
      · next es out hlines => exact Document.isFile?_of_write (Prod.ext rfl h)

/-- **Every copy is a file**, whatever is copied after it. -/
theorem isFile?_of_copyEach {docs : List (Path × Path)}
    (h : (copyEach how targets skip docs t).result = .ok new) :
    ∀ p ∈ new, (copyEach how targets skip docs t).tree.isFile? p = .ok true := by
  induction docs generalizing t new with
  | nil =>
      obtain rfl := Except.ok.inj h
      exact fun p hp => absurd hp List.not_mem_nil
  | cons e docs ih =>
      obtain ⟨file, target⟩ := e
      by_cases hskip : target ∈ skip
      · rw [copyEach_cons_of_mem hskip] at h ⊢
        exact ih h
      · obtain ⟨hcopy, rest, hrest, rfl⟩ := copyEach_cons_eq_ok hskip h
        rw [copyEach_cons_of_made hskip hcopy, List.forall_mem_cons]
        exact ⟨(copyEach_retains how targets skip docs _).toKeeps.isFile? (isFile?_of_copy hcopy),
          ih hrest⟩

end Relink

namespace Build

variable {b : Build} {t t' : FileTree} {written written' : List Path} {vs : List Visit}
  {docs : List (Path × Path)} {pages : List Page}

theorem Runs.isFile? (h : b.Runs t written vs t' written') :
    ∀ p ∈ written', p ∉ written → t'.isFile? p = .ok true := by
  induction h with
  | nil => exact fun p hp hnot => absurd hp hnot
  | @cons v vs page new t written hfound hcopies hruns ih =>
      intro p hp hnot
      by_cases hfirst : p ∈ v.written ++ new
      · have hnew : p ∈ new := (List.mem_append.1 hfirst).resolve_left hnot
        exact hruns.retains.toKeeps.isFile? (Relink.isFile?_of_copyEach hcopies p hnew)
      · exact ih p hp hfirst

/-! ## The documents at the source -/

/-- The name of an entry in the directory to which the path leads. -/
def Lists (t : FileTree) (p : Path) (n : Name) : Prop :=
  ∃ loc, t.resolve p = .ok (.entry loc) ∧ t.entryAt (n :: loc) ≠ none

/-- **The documents of a directory** in alphabetical order. -/
theorem pagesAmong_names {source workingDir : Path} (hworking : workingDir.Normal)
    {listed : List Name} (hlist : t.list source = .ok listed)
    (h : pagesAmong t source workingDir listed = .ok docs) :
    ∃ names : List Name, names.Pairwise (fun m n => Text.le m.text n.text = true ∧ m ≠ n) ∧
      (∀ n, n ∈ names ↔ Lists t source n ∧ Document.isPageName (source.child n) = true ∧
        t.isFile? (source.child n) = .ok true) ∧
      docs.map Prod.snd = names.map workingDir.child := by
  rw [list] at hlist
  cases hres : t.resolve source with
  | error f => exact absurd hlist (by simp [hres])
  | ok place =>
      cases place with
      | free loc n => exact absurd hlist (by simp [hres])
      | entry loc =>
          simp only [hres] at hlist
          split at hlist
          · obtain rfl := Except.ok.inj hlist
            obtain ⟨-, rfl⟩ := (pagesAmong_eq_ok_iff hworking).1 h
            refine ⟨_, ((pairwise_namesIn t loc).and (nodup_namesIn t loc)).filter _, fun n => ?_,
              List.map_map⟩
            rw [List.mem_filter, mem_namesIn, decide_eq_true_eq, Document.isPage?]
            constructor
            · rintro ⟨hentry, hpage⟩
              split at hpage
              · next hname => exact ⟨⟨loc, hres, hentry⟩, hname, hpage⟩
              · exact absurd hpage (by simp)
            · rintro ⟨⟨loc', hres', hentry⟩, hname, hfile⟩
              obtain rfl : loc = loc' := by simpa [hres] using hres'
              exact ⟨hentry, by rw [if_pos hname, hfile]⟩
          · exact absurd hlist (by simp)

/-- The pages of a run are those of its visits, one for each document. -/
theorem makePages_pages (h : (b.makePages docs t written).result = .ok pages) :
    pages.map Page.path = docs.map Prod.snd ∧
      ∀ p, p ∈ Page.paths pages ↔ ∃ v ∈ b.visitAll docs t written, ∃ file, b.Maps v file p := by
  induction docs generalizing t written pages with
  | nil =>
      obtain rfl := Except.ok.inj h
      simp [visitAll, Page.paths, Page.rows, Page.walk]
  | cons e docs ih =>
      obtain ⟨file, target⟩ := e
      obtain ⟨page, new, rest, hfound, hcopies, hrest, rfl⟩ :=
        makePages_cons_eq_ok (v := ⟨t, written, file, target⟩) h
      obtain ⟨-, hvisits⟩ := makePages_cons_of_ok docs (makePage_of_ok hfound hcopies)
      obtain ⟨hpath, hpaths⟩ := Search.collect_paths hfound
      obtain ⟨hpath', hpaths'⟩ := ih hrest
      refine ⟨by rw [List.map_cons, List.map_cons, hpath, hpath'], fun p => ?_⟩
      rw [hvisits, Page.mem_paths_iff, List.exists_mem_cons_iff, List.exists_mem_cons_iff,
        ← Page.mem_paths_iff, hpaths, hpaths']
      rfl

/-! ## Runs -/

/-- The pages are those of the documents at the source, one for each: of the documents in a
directory, in alphabetical order, or of a single document. -/
def HasPages (b : Build) (t : FileTree) (pages : List Page) : Prop :=
  (t.isDirectory? b.source = .ok true ∧ ∃ names : List Name,
    names.Pairwise (fun m n => Text.le m.text n.text = true ∧ m ≠ n) ∧
    (∀ n, n ∈ names ↔ Lists t b.source n ∧ Document.isPageName (b.source.child n) = true ∧
      t.isFile? (b.source.child n) = .ok true) ∧
    pages.map Page.path = names.map b.workingDir.child) ∨
  t.isDirectory? b.source = .ok false ∧ ∃ n, b.source.names.getLast? = some n ∧
    pages.map Page.path = [b.workingDir.child n]

theorem hasPages_of_topLevel (hb : b.Live) {es : List Event} (htop : b.topLevel t = (es, .ok docs))
    (hpages : pages.map Page.path = docs.map Prod.snd) : b.HasPages t pages := by
  rcases topLevel_eq_ok_iff.1 htop with ⟨hdir, -, rfl⟩ | ⟨hdir, -, ns, hlist, hdocs⟩
  · have hlast := List.getLast?_eq_some_getLast (names_ne_nil_of_isDirectory? hb.normal.1 hdir)
    refine .inr ⟨hdir, _, hlast, ?_⟩
    rw [hpages, hlast]
    simp [Path.join_here, Path.child]
  · refine .inl ⟨hdir, ?_⟩
    rw [hpages]
    exact pagesAmong_names hb.normal.2 hlist hdocs

/-- **Pages and copies.** When a run ends with its pages, these are the pages of the documents at
the source. The paths of all pages are the places of the copies that the run adds to its list, and
there is a file at each of these places in the end. -/
theorem run_pages (hb : b.Live) (hnew : b.pages = none) (hok : (b.run t).result = .ok pages) :
    b.HasPages t pages ∧
    (∀ p, p ∈ (b.run t).written ↔ p ∈ b.written ∨ p ∈ Page.paths pages) ∧
    ∀ p ∈ (b.run t).written, p ∉ b.written ∨ t.isFile? p = .ok true →
      (b.run t).tree.isFile? p = .ok true := by
  have hdone : (b.run t).result.isOk := by rw [hok]; rfl
  have hruns := run_runs hdone
  obtain ⟨es, docs, htop⟩ := exists_topLevel hnew hdone
  have hresult := (run_of_topLevel hnew htop).2.2
  rw [hok] at hresult
  obtain ⟨htops, hpaths⟩ := makePages_pages hresult.symm
  rw [← visits_of_topLevel hnew htop] at hpaths
  refine ⟨hasPages_of_topLevel hb htop htops, fun p => by rw [hruns.mem_written_iff, hpaths],
    fun p hp hfile => ?_⟩
  by_cases hmem : p ∈ b.written
  · exact hruns.retains.toKeeps.isFile? (hfile.resolve_left fun hnot => hnot hmem)
  · exact hruns.isFile? p hp hmem

theorem exists_pages {r : Except BuildError (List Page)} {ps : List Path}
    (h : r.toOption.map (·.map Page.path) = some ps) : ∃ pages, r = .ok pages ∧
      pages.map Page.path = ps := by
  cases r with
  | error e => exact absurd h (by simp [Except.toOption])
  | ok pages => exact ⟨pages, rfl, by simpa [Except.toOption] using h⟩

/-- Two documents that share a third one: the pages of a run, and all copies. -/
theorem crossed_run_pages :
    (crossed.Live ∧ crossed.pages = none) ∧
    ∃ pages, (crossed.run crossedTree).result = .ok pages ∧
      crossed.HasPages crossedTree pages ∧
      (∀ p, p ∈ (crossed.run crossedTree).written ↔
        p ∈ crossed.written ∨ p ∈ Page.paths pages) ∧
      ∀ p ∈ (crossed.run crossedTree).written,
        p ∉ crossed.written ∨ crossedTree.isFile? p = .ok true →
          (crossed.run crossedTree).tree.isFile? p = .ok true := by
  have hlive : crossed.Live := .of_isOk (by decide +kernel)
  have hdone : (crossed.run crossedTree).result.toOption.map (·.map Page.path) =
      some (sharedDocs.map Prod.snd) := by
    rw [run_eq_of_topLevel (b := crossed) rfl crossed_topLevel]
    decide +kernel
  obtain ⟨pages, hok, -⟩ := exists_pages hdone
  exact ⟨⟨hlive, rfl⟩, pages, hok, run_pages hlive rfl hok⟩

/-- What the failed run of `spoilt` has left, with the second document mended and without the
working directory. -/
def sweptTree : FileTree :=
  .ofFiles [("/docs/a.adoc", "one\n"), ("/docs/b.adoc", "= B\n")]

theorem sweptTree_topLevel : spoilt.topLevel sweptTree =
    ([.listed spoilt.source], .ok [spoiltDoc "a.adoc", spoiltDoc "b.adoc"]) :=
  topLevel_of_pairwise spoilt_live (linkFree_of_entries (by decide +kernel))
    (by decide +kernel) (by decide +kernel) (by decide +kernel)

/-- **A page has no copy, and a copy has no page**, when a build has failed and is run again: once
the working directory has been removed between the two runs, and once the first document. -/
theorem swept_page_without_copy :
    let b := spoilt.after (spoilt.run spoiltTree)
    let a := (spoiltDoc "a.adoc").2
    (spoilt.Live ∧ b.Live ∧ b.pages = none) ∧
    (∃ pages, (b.run sweptTree).result = .ok pages ∧ a ∈ Page.paths pages ∧
      (b.run sweptTree).tree.isFile? a = .ok false) ∧
    ∃ pages, (b.run clearedTree).result = .ok pages ∧ a ∈ (b.run clearedTree).written ∧
      a ∉ Page.paths pages := by
  intro b a
  have hnone : b.pages = none := congrArg Build.pages spoilt_after
  have hswept : ((spoilt.makePages [spoiltDoc "a.adoc", spoiltDoc "b.adoc"] sweptTree
        [(spoiltDoc "a.adoc").2]).result.toOption.map (·.map Page.path) =
          some [(spoiltDoc "a.adoc").2, (spoiltDoc "b.adoc").2]) ∧
      (spoilt.makePages [spoiltDoc "a.adoc", spoiltDoc "b.adoc"] sweptTree
        [(spoiltDoc "a.adoc").2]).tree.isFile? (spoiltDoc "a.adoc").2 = .ok false := by
    decide +kernel
  have hcleared : ((spoilt.makePages [spoiltDoc "b.adoc"] clearedTree
        [(spoiltDoc "a.adoc").2]).result.toOption.map (·.map Page.path) =
          some [(spoiltDoc "b.adoc").2]) ∧
      (spoiltDoc "a.adoc").2 ∈ (spoilt.makePages [spoiltDoc "b.adoc"] clearedTree
        [(spoiltDoc "a.adoc").2]).written ∧
      ∀ v ∈ spoilt.visitAll [spoiltDoc "b.adoc"] clearedTree [(spoiltDoc "a.adoc").2],
        ∀ e ∈ (spoilt.found v).targets.entries, e.2 ≠ (spoiltDoc "a.adoc").2 := by
    decide +kernel
  obtain ⟨pages, hok, htops⟩ := exists_pages hswept.1
  obtain ⟨pages', hok', -⟩ := exists_pages hcleared.1
  have hpage : (spoiltDoc "a.adoc").2 ∈ Page.paths pages :=
    Page.path_mem_paths _ (htops ▸ List.mem_cons_self)
  have hnot : (spoiltDoc "a.adoc").2 ∉ Page.paths pages' := by
    rw [(makePages_pages hok').2]
    rintro ⟨v, hv, file, hmaps⟩
    exact hcleared.2.2 v hv (file, _) (maps_iff_mem.1 hmaps) rfl
  refine ⟨⟨spoilt_live, .ran _ spoilt_live, hnone⟩, ⟨pages, ?_⟩, pages', ?_⟩
  · rw [show b.run sweptTree = _ from spoilt_run_again sweptTree_topLevel]
    dsimp only
    exact ⟨hok, hpage, hswept.2⟩
  · rw [show b.run clearedTree = _ from spoilt_run_again clearedTree_topLevel]
    dsimp only
    exact ⟨hok', hcleared.2.1, hnot⟩

end Build

end Folio
