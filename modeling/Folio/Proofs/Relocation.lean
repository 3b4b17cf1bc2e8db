import Folio.Proofs.Moving
import Folio.Proofs.Rerun
import Folio.Proofs.Substitution

/-!
# Builds below another directory

A project may be kept in one directory or in another one. **It makes no difference where it
stands**: all references that a build writes lead from one place of the project to another, and
these ways are the same.

**Theorem (`Build.run_moved`).** Let a run end with its pages, and let another tree hold below some
directory what the tree of the run holds below a directory with the source and the working
directory. A build of the counterparts ends with the counterparts of the pages, the copies and the
events, and the trees still hold the same below the two directories, byte by byte. For that, all
documents lie below the directory of the source, and

* the references in them are relative paths that do not leave the directory on their way, and
* no path for which the build asks, and none that it writes, becomes too long.

Without the first of these, a path that leaves the directory and comes back by the name of the
directory leads nowhere when this has another name, and without the second one the build can fail
(`climbing_or_far_differs`).
-/

namespace Folio

open FileTree

namespace Build

variable {b : Build} {root root' : Path} {home dest names : List Name} {t u : FileTree} {v : Visit}
  {written : List Path} {docs : List (Path × Path)}

/-- The build of the counterparts of the source and the working directory. -/
def move (b : Build) (root root' : Path) : Build where
  source := root.move root' b.source
  workingDir := root.move root' b.workingDir
  attributes := b.attributes
  encoding := b.encoding
  written := b.written.map (root.move root')
  pages := b.pages.map (·.map (Page.map (root.move root')))

/-- The counterparts of all paths with which a run has to do, those that it asks for, also in the
directory of the source, and those that it writes, are accepted as far as their length goes. -/
structure Fits (root root' : Path) (b : Build) (t : FileTree) : Prop where
  workingDir : (root.move root' b.workingDir).Short
  asked : ∀ p ∈ b.asked t, (root.move root' p).Short
  listed : ∀ n, t.entryAt (n :: b.source.location) ≠ none →
    Document.isPageName (b.source.child n) = true → (root.move root' (b.source.child n)).Short
  written : ∀ p ∈ (b.run t).written, (root.move root' p).Short

/-! ## The documents at the source -/

theorem child_under (root : Path) (names : List Name) (n : Name) :
    (root.under names).child n = root.under (names ++ [n]) := by
  rw [Path.child, Path.under, Path.under, List.append_assoc]

/-- A place that is no directory is not the first one. -/
theorem ne_nil_of_status? (h : Twin root root' t u) {e : Option Entry}
    (hstatus : t.status? (root.under names) = .ok e) (hdir : e ≠ some .directory) : names ≠ [] := by
  rintro rfl
  rw [Path.under, List.append_nil, isDirectory?_eq_true_iff.1 h.directory] at hstatus
  exact hdir (Except.ok.inj hstatus).symm

/-- Whether an entry of a directory is a document that may be a page. -/
theorem isPage?_child_moved (h : Twin root root' t u) (hhome : Name.up ∉ home) {n : Name} {a : Bool}
    (ha : Document.isPage? t ((root.under home).child n) = .ok a)
    (hshort : Document.isPageName ((root.under home).child n) = true →
      (root'.under (home ++ [n])).Short) :
    Document.isPage? u ((root'.under home).child n) = .ok a := by
  by_cases hname : Document.isPageName ((root.under home).child n) = true
  · have hplain := (child_normal (Path.under_normal h.normal hhome) hname).plain
    rw [child_under] at ha hname hshort hplain ⊢
    exact h.isPage?_eq (fun hup => hplain (List.mem_append_right _ hup)) ha hshort
  · have hname' : ¬ Document.isPageName ((root'.under home).child n) = true := by
      rw [child_under] at hname ⊢
      rwa [Path.isPageName_under (by simp)]
    rw [Document.isPage?, if_neg hname] at ha
    rw [Document.isPage?, if_neg hname', ha]

theorem child_moved (h : Twin root root' t u) (hplain : Name.up ∉ names) {n : Name} (hn : n ≠ .up) :
    root.move root' ((root.under names).child n) = (root'.under names).child n := by
  have hplain' : Name.up ∉ names ++ [n] := by simp [hplain, Ne.symm hn]
  rw [child_under, child_under, Path.move_under h.normal' hplain']

theorem pagesAmong_moved (h : Twin root root' t u) (hhome : Name.up ∉ home) (hdest : Name.up ∉ dest)
    (hdocs : pagesAmong t (root.under home) (root.under dest) names = .ok docs)
    (hshort : ∀ n ∈ names, Document.isPageName ((root.under home).child n) = true →
      (root'.under (home ++ [n])).Short) :
    pagesAmong u (root'.under home) (root'.under dest) names =
        .ok (docs.map (Prod.map (root.move root') (root.move root'))) ∧
      ∀ e ∈ docs, root.Inside e.1 := by
  have hinside : ∀ e ∈ docs, root.Inside e.1 := by
    intro e he
    obtain ⟨n, -, hpage, rfl⟩ :=
      exists_of_mem_pagesAmong (Path.under_normal h.normal hdest) hdocs he
    exact ⟨_, by simp [hhome, Ne.symm (ne_up_of_isPage? hpage)], child_under root home n⟩
  obtain ⟨hall, rfl⟩ := (pagesAmong_eq_ok_iff (Path.under_normal h.normal hdest)).1 hdocs
  have hsame : ∀ n ∈ names, Document.isPage? u ((root'.under home).child n) =
      Document.isPage? t ((root.under home).child n) := by
    intro n hn
    obtain ⟨a, ha⟩ := Search.exists_ok_of_isOk (hall n hn)
    rw [ha]
    exact isPage?_child_moved h hhome ha (hshort n hn)
  have hfilter : (names.filter fun n => Document.isPage? u ((root'.under home).child n) = .ok true) =
      names.filter fun n => Document.isPage? t ((root.under home).child n) = .ok true :=
    List.filter_congr fun n hn => by rw [hsame n hn]
  refine ⟨(pagesAmong_eq_ok_iff (Path.under_normal h.normal' hdest)).2
    ⟨fun n hn => hsame n hn ▸ hall n hn, ?_⟩, hinside⟩
  rw [List.map_map, hfilter]
  refine List.map_congr_left fun n hn => ?_
  have hn := ne_up_of_isPage? (of_decide_eq_true (List.mem_filter.1 hn).2)
  rw [Function.comp_apply, Prod.map, child_moved h hhome hn, child_moved h hdest hn]

/-- A single document has its place below the working directory, under its name. -/
theorem join_last_under {root : Path} {home dest : List Name} (hne : home ≠ []) :
    (root.under dest).join ⟨.here, (root.under home).names.getLast?.toList⟩ =
      root.under (dest ++ [home.getLast hne]) := by
  have hlast : (root.under home).names.getLast? = some (home.getLast hne) := by
    rw [Path.under, List.getLast?_append_of_ne_nil _ hne, List.getLast?_eq_some_getLast hne]
  rw [hlast, Option.toList_some, Path.join_here]
  exact Path.under_under root dest _

/-- **The documents at the source** have their counterparts, in the same order. -/
theorem topLevel_moved (h : Twin root root' t u) (hsource : Name.up ∉ home) (hdest : Name.up ∉ dest)
    (hb : b.source = root.under home) (hb' : b.workingDir = root.under dest) {es : List Event}
    (htop : b.topLevel t = (es, .ok docs)) (hfits : Fits root root' b t) :
    (b.move root root').topLevel u = (es.map (.map (root.move root')),
        .ok (docs.map (Prod.map (root.move root') (root.move root')))) ∧
      ∀ e ∈ docs, root.Inside e.1 := by
  have hshort : (root'.under home).Short := by
    have := hfits.asked b.source List.mem_cons_self
    rwa [hb, Path.move_under h.normal' hsource] at this
  have hsource' : (b.move root root').source = root'.under home := by
    rw [move, hb, Path.move_under h.normal' hsource]
  have hdest' : (b.move root root').workingDir = root'.under dest := by
    rw [move, hb', Path.move_under h.normal' hdest]
  rw [topLevel_eq_ok_iff, hb, hb'] at htop
  rw [topLevel_eq_ok_iff, hsource', hdest']
  have hdir' : ∀ {a}, t.isDirectory? (root.under home) = .ok a →
      u.isDirectory? (root'.under home) = .ok a := fun hdir => h.map_status?_eq hsource hdir hshort
  rcases htop with ⟨hdir, rfl, rfl⟩ | ⟨hdir, rfl, ns, hlist, hdocs⟩
  · have hne : home ≠ [] := by
      rintro rfl
      rw [Path.under, List.append_nil, h.directory] at hdir
      exact absurd hdir (by simp)
    have hplain : Name.up ∉ dest ++ [home.getLast hne] := by
      rw [List.mem_append, List.mem_singleton, not_or]
      exact ⟨hdest, fun hup => hsource (hup ▸ List.getLast_mem hne)⟩
    refine ⟨.inl ⟨hdir' hdir, rfl, ?_⟩, List.forall_mem_singleton.2 ⟨home, hsource, rfl⟩⟩
    rw [join_last_under hne, join_last_under hne, List.map_singleton, Prod.map,
      Path.move_under h.normal' hsource, Path.move_under h.normal' hplain]
  · rw [list_of_isDirectory? h.linkFree (Path.under_normal h.normal hsource) hdir] at hlist
    obtain rfl := Except.ok.inj hlist
    obtain ⟨hdocs', hinside⟩ := pagesAmong_moved h hsource hdest hdocs fun n hn hname => by
      have hplain := (child_normal (Path.under_normal h.normal hsource) hname).plain
      rw [child_under] at hplain
      have hthere := hfits.listed n
      rw [hb, child_under, Path.move_under h.normal'
        (fun hup => hplain (List.mem_append_right _ hup))] at hthere
      exact hthere (mem_namesIn.1 hn) (child_under root home n ▸ hname)
    refine ⟨.inr ⟨hdir' hdir, ?_, _, ?_, hdocs'⟩, hinside⟩
    · rw [List.map_singleton, Event.map, Path.move_under h.normal' hsource]
    · rw [h.list_eq hsource hdir hshort,
        list_of_isDirectory? h.linkFree (Path.under_normal h.normal hsource) hdir]

/-! ## Visits -/

/-- A document and its place have the same names below the two directories. -/
theorem exists_under_of_mirrors {file target : Path}
    (h : Mirrors (root.under home) (root.under dest) file target) (hinside : root.Inside file)
    (hdest : Name.up ∉ dest) :
    ∃ names, names ≠ [] ∧ Name.up ∉ home ++ names ∧ Name.up ∉ dest ++ names ∧
      file = root.under (home ++ names) ∧ target = root.under (dest ++ names) := by
  obtain ⟨there, hthere, rfl⟩ := hinside
  obtain ⟨-, names, hne, hnames, rfl⟩ := h
  have heq : there = home ++ names := by
    rw [Path.under, Path.under, List.append_assoc] at hnames
    exact List.append_cancel_left hnames
  subst heq
  refine ⟨names, hne, hthere, ?_, rfl, Path.under_under root dest names⟩
  rw [List.mem_append, not_or] at hthere ⊢
  exact ⟨hdest, hthere.2⟩

/-- What a visit needs, so that it can be done below the second directory: its document stands below
the first one, documents and their places mirror each other, and the paths for which it asks are
short. -/
structure Portable (root root' : Path) (home dest : List Name) (b : Build) (v : Visit) : Prop where
  places : (b.found v).targets.All (Mirrors (root.under home) (root.under dest))
  inside : root.Inside v.file
  asked : ∀ p ∈ b.askedAt v, (root.move root' p).Short

theorem Portable.movable (h : Portable root root' home dest b v) :
    Search.Movable root root' home (b.search v) (b.found v).targets := by
  refine ⟨fun file hfile => ?_, fun file target ds hmaps hds d hd hasks => ?_⟩
  · obtain ⟨target, htarget⟩ := Option.isSome_iff_exists.1 (OrderedMap.get?_isSome.2 hfile)
    obtain ⟨-, names, hne, hnames, -⟩ := h.places file target htarget
    exact ⟨hnames ▸ List.prefix_append _ _, fun heq => hne (by simpa [← heq] using hnames)⟩
  · exact h.asked _ (mem_askedAt_of_asks (mem_directivesAt hmaps hds hd) hasks)

/-- **A page is made** below the second directory. -/
theorem makePage_moved (h : Twin root root' v.tree u) (hdest : Name.up ∉ dest)
    (hv : Portable root root' home dest b v) (hwritten : ∀ p ∈ v.written, root.Inside p) {page : Page}
    {new : List Path} (hfound : (b.found v).result = .ok page) (hcopies : (b.copies v).result = .ok new)
    (hstays : ∀ e ∈ (b.found v).events ++ (b.copies v).events, e.StaysBelow root)
    (hwrite : ∀ p ∈ new, (root.move root' p).Short) :
    ∃ u', (b.move root root').makePage u (v.written.map (root.move root')) (root.move root' v.file)
        (root.move root' v.target) =
        ⟨u', ((b.found v).events ++ (b.copies v).events).map (.map (root.move root')),
          (v.written ++ new).map (root.move root'), .ok [page.map (root.move root')]⟩ ∧
      Twin root root' (b.copies v).tree u' ∧ ∀ p ∈ new, root.Inside p := by
  have hroot' := h.normal'
  rw [List.forall_mem_append] at hstays
  have hasked : ∀ file ∈ (b.found v).targets.keys, (root.move root' file).Short := fun file hfile =>
    hv.asked file (mem_askedAt_of_mem_keys hfile)
  obtain ⟨names, hne, hhome, hdest', hfile, htarget⟩ :=
    exists_under_of_mirrors (hv.places _ _ (maps_root b v)) hv.inside hdest
  have hs : (b.search v).Twin root root' ⟨u, b.attributes, b.encoding⟩ := ⟨h, rfl, rfl⟩
  have hcollect : (b.search v).collect (root.under (home ++ names)) (root.under (dest ++ names)) .empty =
      b.found v := by rw [found, hfile, htarget]
  have hshort := hasked v.file (Search.mem_keys_of_get? (maps_root b v))
  rw [hfile, Path.move_under hroot' hhome] at hshort
  obtain ⟨μ, hμ, hcollect'⟩ := Search.collect_moved hs hne hhome hdest' hcollect hfound hv.movable
    hshort hstays.1
  -- All documents of the visit and their places stand below the first directory.
  have hdocs : ∀ e ∈ (b.found v).targets.entries, root.Beneath e.1 ∧ root.Beneath e.2 := by
    intro e he
    obtain ⟨names, hne, hplain, hplain', heq, heq'⟩ := exists_under_of_mirrors
      (hv.places e.1 e.2 (maps_iff_mem.2 he)) (hμ.inside e.1 (List.mem_map_of_mem he)) hdest
    exact ⟨⟨_, by simp [hne], hplain, heq⟩, ⟨_, by simp [hne], hplain', heq'⟩⟩
  have hplaces : (b.found v).targets.All fun _ place => root.Inside place := fun file place hmaps =>
    (hdocs (file, place) (maps_iff_mem.1 hmaps)).2.inside
  obtain ⟨u', hcopies', htwin⟩ := Relink.copyEach_moved h hμ hplaces hwritten hdocs hcopies hstays.2
    (fun e he p hp => hv.asked p (mem_askedAt_of_looked? he hp))
    (fun e he => hasked e.1 (List.mem_map_of_mem he)) hwrite
  have hfound' : (b.move root root').found ⟨u, v.written.map (root.move root'), root.move root' v.file,
      root.move root' v.target⟩ = ⟨μ, (b.found v).events.map (.map (root.move root')),
        .ok (page.map (root.move root'))⟩ := by
    rw [hfile, htarget, Path.move_under hroot' hhome, Path.move_under hroot' hdest']
    exact hcollect'
  have hcopied : (b.move root root').copies ⟨u, v.written.map (root.move root'), root.move root' v.file,
      root.move root' v.target⟩ = ⟨u', (b.copies v).events.map (.map (root.move root')),
        .ok (new.map (root.move root'))⟩ := by
    rw [copies, hfound', Relink.copyAll, hμ.entries]
    exact hcopies'
  have hmade := makePage_of_ok (congrArg Finding.result hfound') (congrArg Outcome.result hcopied)
  rw [hfound', hcopied, ← List.map_append, ← List.map_append] at hmade
  refine ⟨u', hmade, htwin, fun p hp => ?_⟩
  · obtain ⟨⟨file, hmaps⟩, -⟩ := (mem_new_iff hcopies).1 hp
    exact hplaces file p hmaps

/-- **Pages are made** below the second directory. -/
theorem makePages_moved (h : Twin root root' t u) (hdest : Name.up ∉ dest) {pages : List Page}
    (hok : (b.makePages docs t written).result = .ok pages) (hwritten : ∀ p ∈ written, root.Inside p)
    (hvisits : ∀ v ∈ b.visitAll docs t written, Portable root root' home dest b v)
    (hstays : ∀ e ∈ (b.makePages docs t written).events, e.StaysBelow root)
    (hwrite : ∀ p ∈ (b.makePages docs t written).written, (root.move root' p).Short) :
    ∃ u', (b.move root root').makePages (docs.map (Prod.map (root.move root') (root.move root'))) u
        (written.map (root.move root')) =
        ⟨u', (b.makePages docs t written).events.map (.map (root.move root')),
          (b.makePages docs t written).written.map (root.move root'),
          .ok (pages.map (Page.map (root.move root')))⟩ ∧
      Twin root root' (b.makePages docs t written).tree u' ∧
      ∀ p ∈ (b.makePages docs t written).written, root.Inside p := by
  induction docs generalizing t u written pages with
  | nil =>
      obtain rfl := Except.ok.inj hok
      exact ⟨u, rfl, h, hwritten⟩
  | cons e docs ih =>
      obtain ⟨file, target⟩ := e
      obtain ⟨page, new, rest, hfound, hcopies, hrest, rfl⟩ :=
        makePages_cons_eq_ok (v := ⟨t, written, file, target⟩) hok
      obtain ⟨hmade, hvisited⟩ := makePages_cons_of_ok docs (makePage_of_ok hfound hcopies)
      rw [hmade] at hstays hwrite ⊢
      rw [hvisited, List.forall_mem_cons] at hvisits
      rw [List.forall_mem_append] at hstays
      -- What has been written stays written, so the copies of the visit are short as well.
      have hnew : ∀ p ∈ new, (root.move root' p).Short := fun p hp =>
        hwrite p ((makePages_runs hrest).mem_written_iff.2 (.inl (List.mem_append_right _ hp)))
      obtain ⟨u', hmade', h', hinside⟩ := makePage_moved (v := ⟨t, written, file, target⟩) h hdest
        hvisits.1 hwritten hfound hcopies hstays.1 hnew
      obtain ⟨u'', hrest', h''⟩ := ih h' hrest (List.forall_mem_append.2 ⟨hwritten, hinside⟩)
        hvisits.2 hstays.2 hwrite
      refine ⟨u'', ?_, h''⟩
      rw [List.map_cons, Prod.map, (makePages_cons_of_ok _ hmade').1, hrest']
      simp only [List.map_append]
      rfl

/-! ## Runs -/

/-- **The source is fit for a build** below the second directory. Only if it is a directory, its
path can be that of the first one, and its name another one there. -/
theorem checkSource_moved (h : Twin root root' t u) (hplain : Name.up ∉ names)
    (hcheck : checkSource t (root.under names) = .ok ()) (hshort : (root'.under names).Short) :
    checkSource u (root'.under names) = .ok () := by
  obtain ⟨e, hstatus, hfit⟩ := checkSource_eq_ok_iff.1 hcheck
  refine checkSource_eq_ok_iff.2 ⟨e, h.status?_eq hplain hstatus hshort, ?_⟩
  by_cases hdir : e = .directory
  · exact .inl hdir
  · have hne : names ≠ [] := ne_nil_of_status? h hstatus fun heq => hdir (Option.some.inj heq)
    have hname : Document.isPageName (root'.under names) = Document.isPageName (root.under names) :=
      Path.isPageName_under hne
    exact .inr (hname.trans (hfit.resolve_left hdir))

theorem checkWorkingDir_moved (h : Twin root root' t u) (hplain : Name.up ∉ names)
    (hcheck : checkWorkingDir t (root.under names) = .ok ()) (hshort : (root'.under names).Short) :
    checkWorkingDir u (root'.under names) = .ok () :=
  checkWorkingDir_eq_ok_iff.2 <| (checkWorkingDir_eq_ok_iff.1 hcheck).imp
    (fun hstatus => h.status?_eq hplain hstatus hshort) fun hstatus => h.status?_eq hplain hstatus hshort

/-- **A build can be opened** below the second directory. -/
theorem open?_moved (h : Twin root root' t u) {source workingDir : Path} {attributes : Attributes}
    {encoding : Text} (hsource : root.Inside source) (hworking : root.Inside workingDir)
    (hshort : (root.move root' source).Short) (hshort' : (root.move root' workingDir).Short)
    (hopen : open? t source workingDir attributes encoding = .ok b) :
    open? u (root.move root' source) (root.move root' workingDir) attributes encoding =
      .ok (b.move root root') := by
  obtain ⟨home, hhome, rfl⟩ := hsource
  obtain ⟨dest, hdest, rfl⟩ := hworking
  have hb := open?_eq_ok hopen
  rw [(Path.under_normal h.normal hhome).absolute_eq, (Path.under_normal h.normal hdest).absolute_eq] at hb
  obtain ⟨_, hcheck, hopen⟩ := exists_of_bind_eq_ok hopen
  obtain ⟨_, hcheck', hopen⟩ := exists_of_bind_eq_ok hopen
  obtain ⟨_, hencoding, -⟩ := exists_of_bind_eq_ok hopen
  rw [Path.move_under h.normal' hhome] at hshort ⊢
  rw [Path.move_under h.normal' hdest] at hshort' ⊢
  rw [open?, checkSource_moved h hhome hcheck hshort, checkWorkingDir_moved h hdest hcheck' hshort',
    hencoding, (Path.under_normal h.normal' hhome).absolute_eq,
    (Path.under_normal h.normal' hdest).absolute_eq, hb, move, Path.move_under h.normal' hhome,
    Path.move_under h.normal' hdest]
  rfl

/-- The directory of the source stands below a directory as the source does. -/
theorem exists_home_under (h : Twin root root' t u) (hsource : root.Inside b.source) :
    ∃ home, Name.up ∉ home ∧ b.home t = root.under home := by
  obtain ⟨names, hplain, hb⟩ := hsource
  rw [home]
  split
  · exact ⟨names, hplain, hb⟩
  · next hdir =>
      have hne : names ≠ [] := by
        rintro rfl
        rw [hb, Path.under, List.append_nil] at hdir
        exact hdir h.directory
      exact ⟨names.dropLast, fun hup => hplain (List.dropLast_subset _ hup), by
        rw [hb, Path.parent_under hne]⟩

/-- A run of a build and another tree, below a directory of which the same stands as in the first
one. The source, the working directory and earlier copies lie below the first directory, the
documents below that of the source, and the run ends with its pages. -/
structure Relocatable (root root' : Path) (b : Build) (t u : FileTree) : Prop where
  live : b.Live
  twin : Twin root root' t u
  source : root.Inside b.source
  workingDir : root.Inside b.workingDir
  written : ∀ p ∈ b.written, root.Inside p
  run : (b.run t).result.isOk
  below : ∀ v ∈ b.visits t, ∀ file ∈ (b.found v).targets.keys, (b.home t).Below file

/-- **A build below another directory.** -/
theorem run_moved (h : Relocatable root root' b t u)
    (hstays : ∀ e ∈ (b.run t).events, e.StaysBelow root) (hfits : Fits root root' b t) :
    let b' := b.move root root'
    (open? t b.source b.workingDir b.attributes b.encoding = .ok b →
      open? u b'.source b'.workingDir b'.attributes b'.encoding = .ok b') ∧
    (∃ pages, (b.run t).result = .ok pages ∧
      (b'.run u).result = .ok (pages.map (Page.map (root.move root')))) ∧
    (b'.run u).written = (b.run t).written.map (root.move root') ∧
    (b'.run u).events = (b.run t).events.map (Event.map (root.move root')) ∧
    (∀ p ∈ (b.run t).written, root.Inside p) ∧ Twin root root' (b.run t).tree (b'.run u).tree := by
  intro b'
  obtain ⟨hb, htwin, hsource, hworking, hwritten, hrun, hbelow⟩ := h
  refine ⟨fun hopen => ?_, ?_⟩
  · exact open?_moved htwin hsource hworking (hfits.asked _ List.mem_cons_self) hfits.workingDir hopen
  cases hpages : b.pages with
  | some pages =>
      have hpages' : b'.pages = some (pages.map (Page.map (root.move root'))) := by
        show b.pages.map _ = _
        rw [hpages, Option.map_some]
      rw [run_of_pages hpages, run_of_pages hpages']
      exact ⟨⟨pages, rfl, rfl⟩, rfl, rfl, hwritten, htwin⟩
  | none =>
      have hpages' : b'.pages = none := by
        show b.pages.map _ = _
        rw [hpages, Option.map_none]
      obtain ⟨es, docs, htop⟩ := exists_topLevel hpages hrun
      obtain ⟨home, hhome, hhome'⟩ := exists_home_under htwin hsource
      obtain ⟨source, hplain, hsource'⟩ := hsource
      obtain ⟨dest, hdest, hworking'⟩ := hworking
      obtain ⟨htop', hinside⟩ := topLevel_moved htwin hplain hdest hsource' hworking' htop hfits
      have hvisits : ∀ v ∈ b.visits t, Portable root root' home dest b v := by
        intro v hv
        have hmirrors := found_mirrors hb hv (hbelow v hv)
        rw [hhome', hworking'] at hmirrors
        refine ⟨hmirrors, ?_, fun p hp => hfits.asked p (mem_asked hv hp)⟩
        rw [visits_of_topLevel hpages htop] at hv
        exact hinside _ (mem_of_mem_visitAll hv)
      have hwrite := hfits.written
      rw [visits_of_topLevel hpages htop] at hvisits
      rw [run_eq_of_topLevel hpages htop] at hrun hstays hwrite ⊢
      rw [List.forall_mem_append] at hstays
      obtain ⟨pages, hok⟩ := Search.exists_ok_of_isOk hrun
      obtain ⟨u', hmade, htwin', hinside'⟩ :=
        makePages_moved htwin hdest hok hwritten hvisits hstays.2 hwrite
      have hrun' := run_eq_of_topLevel hpages' htop'
      have hwritten' : b'.written = b.written.map (root.move root') := rfl
      rw [hwritten', hmade] at hrun'
      rw [hrun']
      exact ⟨⟨pages, hok, rfl⟩, rfl, (List.map_append ..).symm, hinside', htwin'⟩

/-! ## A project in several directories -/

/-- A project with these files below a directory. -/
def projectTree (files : List (String × String)) (root : Path) : FileTree :=
  (putEntries (files.map fun f => (root.under (Path.ofText f.1.toList).names,
    .file (bytesOf f.2))) (empty [])).1

/-- A build of the project, with a working directory below the same directory. -/
def project (root : Path) (work : List Name) : Build :=
  ⟨root.under (Path.ofText "docs/index.adoc".toList).names, root.under work, .empty, "utf-8".toList,
    [], none⟩

section Project

variable {files : List (String × String)} {work : List Name}

theorem project_live (hroot : root.Normal)
    (hplain : Name.up ∉ (Path.ofText "docs/index.adoc".toList).names ∧ Name.up ∉ work)
    (hopen : (open? t (project root work).source (project root work).workingDir .empty
      "utf-8".toList).isOk) : (project root work).Live := by
  have hlive := Live.of_isOk hopen
  have hsource : (project root work).source.Normal := Path.under_normal hroot hplain.1
  have hworking : (project root work).workingDir.Normal := Path.under_normal hroot hplain.2
  rwa [hsource.absolute_eq, hworking.absolute_eq] at hlive

/-- The project can be built below two directories, as a look at all entries tells. -/
theorem project_relocatable (hroots : root.isAbsolute = true ∧ Name.up ∉ root.names ∧
      root'.isAbsolute = true ∧ Name.up ∉ root'.names)
    (hplain : Name.up ∉ (Path.ofText "docs/index.adoc".toList).names ∧ Name.up ∉ work)
    (htrees : (projectTree files root).isDirectory? root = .ok true ∧
      (projectTree files root').isDirectory? root' = .ok true ∧
      (∀ e ∈ (projectTree files root).entries.entries, e.2.isLink = false) ∧
      (∀ e ∈ (projectTree files root').entries.entries, e.2.isLink = false) ∧
      HeldBelow root.location root'.location (projectTree files root) (projectTree files root') ∧
      HeldBelow root'.location root.location (projectTree files root') (projectTree files root))
    (hrun : (open? (projectTree files root) (project root work).source
        (project root work).workingDir .empty "utf-8".toList).isOk ∧
      ((project root work).run (projectTree files root)).result.isOk ∧
      ∀ v ∈ (project root work).visits (projectTree files root),
        ∀ file ∈ ((project root work).found v).targets.keys,
          ((project root work).home (projectTree files root)).Below file) :
    Relocatable root root' (project root work) (projectTree files root)
      (projectTree files root') := by
  obtain ⟨habsolute, hup, habsolute', hup'⟩ := hroots
  obtain ⟨hdir, hdir', hfree, hfree', hheld, hheld'⟩ := htrees
  have hroot : root.Normal := ⟨habsolute, hup⟩
  have hroot' : root'.Normal := ⟨habsolute', hup'⟩
  have hlinkFree := linkFree_of_entries hfree
  have hlinkFree' := linkFree_of_entries hfree'
  have htop := entryAt_of_status? hlinkFree hroot (isDirectory?_eq_true_iff.1 hdir)
  have htop' := entryAt_of_status? hlinkFree' hroot' (isDirectory?_eq_true_iff.1 hdir')
  exact {
    live := project_live hroot hplain hrun.1
    twin := ⟨hroot, hroot', hlinkFree, hlinkFree', hdir, hdir',
      entryAt_of_heldBelow (htop'.trans htop.symm) hheld hheld'⟩
    source := ⟨_, hplain.1, rfl⟩
    workingDir := ⟨_, hplain.2, rfl⟩
    written := by simp [project]
    run := hrun.2.1
    below := hrun.2.2 }

end Project

/-- Nothing is listed in a source that is no directory. -/
theorem fits_of_source (h : t.entryAt b.source.location ≠ some .directory ∧
      (root.move root' b.workingDir).Short ∧ (∀ p ∈ b.asked t, (root.move root' p).Short) ∧
      ∀ p ∈ (b.run t).written, (root.move root' p).Short) : Fits root root' b t := by
  obtain ⟨hsource, hworking, hasked, hwritten⟩ := h
  refine ⟨hworking, hasked, fun n hn => ?_, hwritten⟩
  obtain ⟨e, he⟩ := Option.ne_none_iff_exists'.1 hn
  exact absurd (entryAt_parent he) hsource

def rootOne : Path := ⟨.root, [⟨"one".toList, by decide +kernel⟩]⟩

def rootTwo : Path := ⟨.root, [⟨"home".toList, by decide +kernel⟩, ⟨"two".toList, by decide +kernel⟩]⟩

def beside : List Name := [⟨"work".toList, by decide +kernel⟩]

/-- A document with another one that refers to a picture above it, and to nothing. -/
def pictureFiles : List (String × String) :=
  [("docs/index.adoc", "include::page.adoc[]\n"),
    ("docs/page.adoc", "link:../pic.png[P]\nlink:gone.png[G]\n"), ("pic.png", "p")]

theorem pictures_run_moved :
    let b := project rootOne beside
    let t := projectTree pictureFiles rootOne
    let b' := b.move rootOne rootTwo
    let u := projectTree pictureFiles rootTwo
    (Relocatable rootOne rootTwo b t u ∧ (∀ e ∈ (b.run t).events, e.StaysBelow rootOne) ∧
      Fits rootOne rootTwo b t) ∧
    (open? t b.source b.workingDir b.attributes b.encoding = .ok b →
      open? u b'.source b'.workingDir b'.attributes b'.encoding = .ok b') ∧
    (∃ pages, (b.run t).result = .ok pages ∧
      (b'.run u).result = .ok (pages.map (Page.map (rootOne.move rootTwo)))) ∧
    (b'.run u).written = (b.run t).written.map (rootOne.move rootTwo) ∧
    (b'.run u).events = (b.run t).events.map (Event.map (rootOne.move rootTwo)) ∧
    (∀ p ∈ (b.run t).written, rootOne.Inside p) ∧
    Twin rootOne rootTwo (b.run t).tree (b'.run u).tree := by
  intro b t b' u
  have hproject : Relocatable rootOne rootTwo b t u :=
    project_relocatable (by decide +kernel) (by decide +kernel) (by decide +kernel)
      (by decide +kernel)
  have hrun : (∀ e ∈ (b.run t).events, e.StaysBelow rootOne) ∧
      t.entryAt b.source.location ≠ some .directory ∧ (rootOne.move rootTwo b.workingDir).Short ∧
      (∀ p ∈ b.asked t, (rootOne.move rootTwo p).Short) ∧
      ∀ p ∈ (b.run t).written, (rootOne.move rootTwo p).Short := by
    decide +kernel
  have hfits := fits_of_source hrun.2
  exact ⟨⟨hproject, hrun.1, hfits⟩, run_moved hproject hrun.1 hfits⟩

/-- A document that leads out of its project, and back by the name of the directory. -/
def climbingFiles : List (String × String) :=
  [("docs/index.adoc", "link:../../one/pic.png[P]\n"), ("pic.png", "p")]

/-- A directory with a name of 252 bytes. -/
def rootLong : Path := ⟨.root, [⟨List.replicate 252 'r', by decide +kernel⟩]⟩

/-- A way of 4000 bytes. The characters have four bytes each. -/
def farBelow : List Name :=
  (List.range 16).filterMap fun i => Name.ofText? (List.replicate 62 (Char.ofNat (0x10000 + i)))

/-- **Where a project stands makes a difference** once a reference leads out of it and back by the
name of its directory, since the copy has another text then, and once the paths of copies become too
long, since the build fails then. -/
theorem climbing_or_far_differs :
    let b := project rootOne beside
    let t := projectTree climbingFiles rootOne
    let b' := b.move rootOne rootTwo
    let u := projectTree climbingFiles rootTwo
    let copy := (Path.ofText "work/index.adoc".toList).names
    let far := project rootOne farBelow
    (Relocatable rootOne rootTwo b t u ∧ Fits rootOne rootTwo b t ∧
      (∀ e ∈ (b.run t).events, ∀ r ∈ e.reference?,
        (Path.ofText r.2).isAbsolute = false ∧ rootOne.Inside (Document.refer r.1 r.2)) ∧
      (b'.run u).events ≠ (b.run t).events.map (Event.map (rootOne.move rootTwo)) ∧
      (b'.run u).tree.entryAt (rootTwo.under copy).location ≠
        (b.run t).tree.entryAt (rootOne.under copy).location) ∧
    Relocatable rootOne rootLong far (projectTree [("docs/index.adoc", "")] rootOne)
      (projectTree [("docs/index.adoc", "")] rootLong) ∧
    (∀ e ∈ (far.run (projectTree [("docs/index.adoc", "")] rootOne)).events,
      e.StaysBelow rootOne) ∧
    ((far.move rootOne rootLong).run
      (projectTree [("docs/index.adoc", "")] rootLong)).result.isOk = false := by
  intro b t b' u copy far
  have hclimbing : Relocatable rootOne rootTwo b t u :=
    project_relocatable (by decide +kernel) (by decide +kernel) (by decide +kernel)
      (by decide +kernel)
  have hrun : (t.entryAt b.source.location ≠ some .directory ∧
        (rootOne.move rootTwo b.workingDir).Short ∧
        (∀ p ∈ b.asked t, (rootOne.move rootTwo p).Short) ∧
        ∀ p ∈ (b.run t).written, (rootOne.move rootTwo p).Short) ∧
      (∀ e ∈ (b.run t).events, ∀ r ∈ e.reference?, (Path.ofText r.2).isAbsolute = false ∧
        Document.refer r.1 r.2 = rootOne.under (Path.ofText "pic.png".toList).names) ∧
      Name.up ∉ (Path.ofText "pic.png".toList).names ∧
      (b'.run u).events ≠ (b.run t).events.map (Event.map (rootOne.move rootTwo)) ∧
      (b'.run u).tree.entryAt (rootTwo.under copy).location ≠
        (b.run t).tree.entryAt (rootOne.under copy).location := by
    decide +kernel
  obtain ⟨hfits, hrefer, hplain, hdiffer⟩ := hrun
  have hfar : Relocatable rootOne rootLong far (projectTree [("docs/index.adoc", "")] rootOne)
      (projectTree [("docs/index.adoc", "")] rootLong) :=
    project_relocatable (by decide +kernel) (by decide +kernel) (by decide +kernel)
      (by decide +kernel)
  exact ⟨⟨hclimbing, fits_of_source hfits, fun e he r hr =>
    ⟨(hrefer e he r hr).1, _, hplain, (hrefer e he r hr).2⟩, hdiffer⟩, hfar, by decide +kernel⟩

end Build

end Folio
