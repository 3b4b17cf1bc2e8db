import Folio.Proofs.Listing

/-!
# Builds that are done again

**Theorem (`Build.run_again`).** When a quiet run has ended with its pages, a new build with the
same arguments can be opened on what it has left, and does just the same: the same pages, the same
copies and events, and the file tree as it was, byte by byte.

A run writes over its own copies then, so this says that all it has made, the directories included,
is out of sight of the questions, readings and listings of the next run. Besides quietness two
things are needed:

* nothing with the name of a document has been made in the directory of the source, and
* the file tree that is left can still be asked about these paths.

Without the second one the next run can fail, since a reference with a name that is too long is
missing only as long as its directory is (`unfit_run_fails_again`).
-/

namespace Folio

open FileTree

/-! ## Opening a build again -/

namespace Build

variable {b : Build} {t u : FileTree} {source workingDir : Path} {attributes : Attributes}
  {encoding : Text}

theorem maps_root (b : Build) (v : Visit) : b.Maps v v.file v.target := by
  refine (Search.collect_grows (OrderedMap.get?_empty v.file)).get?_mono ?_
  simp [OrderedMap.get?_insert]

/-- **The working directory is one**, if anything has been made. -/
theorem workingDir_directory (hb : b.Live) (ht : t.LinkFree) (hrun : (b.run t).result.isOk)
    (hnew : b.written = []) {v : Visit} (hv : v ∈ b.visits t) :
    (b.run t).tree.entryAt b.workingDir.location = some .directory := by
  obtain ⟨content, hfile⟩ := (fits_of_maps hb ht hrun hnew hv (maps_root b v)).file
  have hmirrors := mirrors_visit hb hv
  refine directory_above_file hfile hmirrors.location_suffix fun hloc => ?_
  obtain ⟨-, names, hne, -, htarget⟩ := hmirrors
  rw [htarget, Path.location, Path.location, List.reverse_inj] at hloc
  exact hne (by simpa using hloc)

theorem checkSource_of_keeps (h : Keeps t u)
    (hsource : checkSource t source = .ok ()) : checkSource u source = .ok () := by
  rw [checkSource_eq] at hsource ⊢
  cases hstatus : t.status? source with
  | error f =>
      rw [hstatus] at hsource
      exact absurd hsource (by simp)
  | ok e =>
      cases e with
      | none =>
          rw [hstatus] at hsource
          exact absurd hsource (by simp)
      | some e =>
          obtain ⟨e', he', hlike⟩ := h.status? hstatus
          rw [hstatus] at hsource
          rw [he']
          rw [Entry.alike_iff] at hlike
          rcases hlike with rfl | ⟨_, _, rfl, rfl⟩ <;> exact hsource

theorem checkWorkingDir_of_directory (hu : u.LinkFree) (hanswers : u.Answers workingDir)
    (hdir : u.entryAt (Path.absolute u.cwdPath workingDir).location = some .directory) :
    checkWorkingDir u workingDir = .ok () := by
  rw [checkWorkingDir_eq]
  rw [Answers] at hanswers
  cases hstatus : u.status? workingDir with
  | error f =>
      rw [hstatus] at hanswers
      exact absurd hanswers Bool.false_ne_true
  | ok e =>
      cases e with
      | none => rfl
      | some e =>
          obtain ⟨loc, hres, hentry⟩ := status?_eq_some_iff.1 hstatus
          obtain rfl : loc = _ := resolve_location hu hres
          obtain rfl := Option.some.inj (hentry.symm.trans hdir)
          rfl

theorem Runs.eq_of_nil {t' : FileTree} {written written' : List Path}
    (h : b.Runs t written [] t' written') : t' = t := by
  cases h
  rfl

/-- **The build can be opened again.** -/
theorem open?_again (hopen : open? t source workingDir attributes encoding = .ok b)
    (ht : t.LinkFree) (hrun : (b.run t).result.isOk)
    (hanswers : (b.run t).tree.Answers workingDir) :
    open? (b.run t).tree source workingDir attributes encoding = .ok b := by
  have hb : b.Live := .opened hopen
  have hbuild := open?_eq_ok hopen
  have hkeeps : Keeps t (b.run t).tree := (run_runs hrun).retains.toKeeps
  have hfree := run_linkFree hb ht hrun
  obtain ⟨⟨⟩, hsource, hopen'⟩ := exists_of_bind_eq_ok hopen
  obtain ⟨⟨⟩, hworking, hopen''⟩ := exists_of_bind_eq_ok hopen'
  obtain ⟨⟨⟩, hencoding, -⟩ := exists_of_bind_eq_ok hopen''
  have hcwd : (b.run t).tree.cwdPath = t.cwdPath := by rw [cwdPath, cwdPath, hkeeps.cwd]
  have hsource' : checkSource (b.run t).tree source = .ok () :=
    checkSource_of_keeps hkeeps hsource
  have hworking' : checkWorkingDir (b.run t).tree workingDir = .ok () := by
    cases hvisits : b.visits t with
    | nil =>
        have hruns := run_runs hrun
        rw [hvisits] at hruns
        rwa [hruns.eq_of_nil]
    | cons v vs =>
        have hv : v ∈ b.visits t := hvisits ▸ List.mem_cons_self
        have hdir := workingDir_directory hb ht hrun (by rw [hbuild]) hv
        have hplace : b.workingDir = Path.absolute t.cwdPath workingDir :=
          congrArg Build.workingDir hbuild
        refine checkWorkingDir_of_directory hfree hanswers ?_
        rwa [hcwd, ← hplace]
  rw [open?, hsource', hworking', hencoding, hcwd]
  exact congrArg Except.ok hbuild.symm

theorem run_eq_of_topLevel {es : List Event} {docs : List (Path × Path)} (hpages : b.pages = none)
    (htop : b.topLevel t = (es, .ok docs)) :
    b.run t = ⟨(b.makePages docs t b.written).tree,
      es ++ (b.makePages docs t b.written).events, (b.makePages docs t b.written).written,
      (b.makePages docs t b.written).result⟩ := by
  rw [run, hpages]
  simp only [make, htop]

/-- **A quiet run is done again in the same way** by a new build with the same arguments, if nothing
with the name of a document has been made in the directory of the source, and the file tree that is
left can be asked about the paths of the run. -/
theorem run_again (hopen : open? t source workingDir attributes encoding = .ok b)
    (ht : t.LinkFree) (hrun : (b.run t).result.isOk) (hquiet : b.Quiet t) (hadds : b.AddsNoPage t)
    (hanswers : ∀ p ∈ workingDir :: b.asked t, (b.run t).tree.Answers p) :
    open? (b.run t).tree source workingDir attributes encoding = .ok b ∧
      b.run (b.run t).tree = b.run t := by
  have hb : b.Live := .opened hopen
  have hbuild := open?_eq_ok hopen
  have hpages : b.pages = none := by rw [hbuild]
  have hwritten : b.written = [] := by rw [hbuild]
  rw [List.forall_mem_cons] at hanswers
  refine ⟨open?_again hopen ht hrun hanswers.1, ?_⟩
  have hsteady := asked_steady hb ht hrun hquiet hanswers.2
  have hagain := topLevel_again hb ht hrun hpages (hsteady b.source List.mem_cons_self) hadds
  obtain ⟨es, docs, htop⟩ := exists_topLevel hpages hrun
  have hfirst := run_eq_of_topLevel hpages htop
  have hsecond := run_eq_of_topLevel hpages (hagain.trans htop)
  have htree : (b.run t).tree = (b.makePages docs t b.written).tree := by rw [hfirst]
  have hlist : (b.run t).written = (b.makePages docs t b.written).written := by rw [hfirst]
  obtain ⟨pages, hok⟩ : ∃ pages, (b.makePages docs t b.written).result = .ok pages := by
    rw [hfirst] at hrun
    exact Search.exists_ok_of_isOk hrun
  have hvisits := visits_of_topLevel hpages htop
  obtain ⟨w, hmade, hlike⟩ := makePages_again (run_linkFree hb ht hrun)
    (fun loc hold hmade => mem_made_of_new hold hmade) (start_stage hrun)
    (end_stage hb ht hrun) hok
    (fun v hv p hp => hsteady p (mem_asked (hvisits ▸ hv) hp))
    (fun v hv file target hmaps => fits_of_maps hb ht hrun hwritten (hvisits ▸ hv) hmaps)
  have hretains : Retains (b.run t).tree w := by
    have hruns := makePages_runs (by rw [hmade] : (b.makePages docs (b.run t).tree b.written).result =
      .ok pages)
    rw [hmade] at hruns
    exact hruns.retains
  -- Where no copy was made, nothing has changed; where a directory was made, it is there.
  have hsame : w = (b.run t).tree := by
    refine hretains.eq_of_entryAt fun loc => ?_
    rw [← htree] at hlike
    rcases run_changes_written hb ht hrun loc with heq | ⟨p, hp, hloc, -⟩ | ⟨-, -, -, -, hdir⟩
    · exact hlike loc (.inl heq)
    · exact hlike loc (.inr ⟨p, hlist ▸ hp.1, hp.2, hloc⟩)
    · rw [hretains.directory hdir, hdir]
  rw [hsecond, hmade, hsame, hfirst, hok]

/-- A document with a page below it, a picture, and a reference to no file. -/
def notesTree : FileTree :=
  .ofFiles [("/docs/index.adoc", "include::part/a.adoc[]\nlink:pic.png[P] link:gone.png[G]\n"),
    ("/docs/part/a.adoc", "= A\n"), ("/docs/pic.png", "p")]

/-- A build of this document below a directory beside it. -/
def notes : Build :=
  ⟨Path.absolute notesTree.cwdPath (.ofText "/docs/index.adoc".toList),
    Path.absolute notesTree.cwdPath (.ofText "/docs/work".toList), .empty, "utf-8".toList, [], none⟩

theorem notes_run_again :
    let source : Path := .ofText "/docs/index.adoc".toList
    let workingDir : Path := .ofText "/docs/work".toList
    let left := (notes.run notesTree).tree
    (open? notesTree source workingDir .empty "utf-8".toList = .ok notes ∧ notesTree.LinkFree ∧
      (notes.run notesTree).result.isOk ∧ notes.Quiet notesTree ∧ notes.AddsNoPage notesTree ∧
      ∀ p ∈ workingDir :: notes.asked notesTree, left.Answers p) ∧
    open? left source workingDir .empty "utf-8".toList = .ok notes ∧
      notes.run left = notes.run notesTree := by
  intro source workingDir left
  have hopen : open? notesTree source workingDir .empty "utf-8".toList = .ok notes :=
    open?_of_isOk (by decide +kernel)
  have hfree : notesTree.LinkFree := linkFree_of_entries (by decide +kernel)
  have hall : (notes.run notesTree).result.isOk ∧ notes.Quiet notesTree ∧
      notes.AddsNoPage notesTree ∧ ∀ p ∈ workingDir :: notes.asked notesTree, left.Answers p := by
    decide +kernel
  obtain ⟨hdone, hquiet, hadds, hanswers⟩ := hall
  exact ⟨⟨hopen, hfree, hdone, hquiet, hadds, hanswers⟩,
    run_again hopen hfree hdone hquiet hadds hanswers⟩

/-- A document with a reference to a file with a long name below a directory that does not exist. -/
def unfitTree : FileTree :=
  let line : Text := "link:../work/".toList ++ .replicate 256 'x' ++ "[L]\n".toList
  (putEntries [(.ofText "/src/index.adoc".toList,
    .file (line.map fun c => UInt8.ofNat c.toNat))] (empty [])).1

/-- A build of this document below that directory. -/
def unfit : Build :=
  ⟨Path.absolute unfitTree.cwdPath (.ofText "/src/index.adoc".toList),
    Path.absolute unfitTree.cwdPath (.ofText "/work".toList), .empty, "utf-8".toList, [], none⟩

/-- **The next run fails**, although the first one was quiet: the reference is missing as long as
its directory is, and cannot be told any more when the directory has been made. -/
theorem unfit_run_fails_again :
    let source : Path := .ofText "/src/index.adoc".toList
    let workingDir : Path := .ofText "/work".toList
    let left := (unfit.run unfitTree).tree
    open? unfitTree source workingDir .empty "utf-8".toList = .ok unfit ∧ unfitTree.LinkFree ∧
      (unfit.run unfitTree).result.isOk ∧ unfit.Quiet unfitTree ∧ unfit.AddsNoPage unfitTree ∧
      open? left source workingDir .empty "utf-8".toList = .ok unfit ∧
      (unfit.run left).result = .error (.uncertain .tooLong) := by
  intro source workingDir left
  have hopen : open? unfitTree source workingDir .empty "utf-8".toList = .ok unfit :=
    open?_of_isOk (by decide +kernel)
  have hfree : unfitTree.LinkFree := linkFree_of_entries (by decide +kernel)
  -- The two runs are evaluated together.
  have hruns : (unfit.run unfitTree).result.isOk ∧ unfit.Quiet unfitTree ∧
      unfit.AddsNoPage unfitTree ∧ left.Answers workingDir ∧
      (unfit.run left).result.map (fun _ => ()) = .error (.uncertain .tooLong) := by
    decide +kernel
  obtain ⟨hdone, hquiet, hadds, hanswers, hfails⟩ := hruns
  have hopen' : open? left source workingDir .empty "utf-8".toList = .ok unfit :=
    open?_again hopen hfree hdone hanswers
  exact ⟨hopen, hfree, hdone, hquiet, hadds, hopen', error_of_map_eq_error hfails⟩

end Build

end Folio
